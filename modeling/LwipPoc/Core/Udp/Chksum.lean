import LwipPoc.Core.Udp.Send

/-!
# The checksum of a datagram

`udp_sendto_if_chksum` with the sum of the data, and without it, and the test that `udp_input` makes. With the sum,
the header is summed alone, and the sum of the data is added to what came of it. The two ways end with the same
ones' complement sum, which has two forms of zero; the checksum is never stored as zero, and of what is left
there is one number for each sum (`stored_unique`). So **both ways send the same packet**, and `udp_input` takes it
however it is stored there (`udpSendto_chksum`).
-/

namespace Lwip.Udp

open Lwip.Core Lwip.Ipv4 IpHdr

/-- `udp_input` down to its checksum, for a packet that there is a control block for: it goes on, or the packet is
dropped. -/
def udpInputAccepts (alg : ChksumAlgorithm) (addr : ℕ → ℕ) (behind : ℕ → BitVec 8) (ps : List Pbuf) : Bool :=
  let iphdr := readHdr (bytesAt (firstBytes ps) behind)
  let hlen := iphdr.hl * 4
  -- "Check minimum length (IP header + UDP header)"
  if pbufTotLen ps < hlen + udpHlen then false
  else
    match pbufHide hlen ps with
    | none => false
    | some q =>
      let udphdr := fun i ↦ bytesAt (firstBytes ps) behind (hlen + i)
      if loadU16 (udphdr 6) (udphdr 7) ≠ 0 then
        inetChksumPseudo alg (UdpBuf.buffers addr ⟨q, 0⟩) iphdr.srcAddr iphdr.destAddr ipProtoUdp
          (BitVec.ofNat 16 (pbufTotLen q)) = 0
      else true

/-! ### What is summed -/

/-- The buffers hold the bytes of the chain. -/
theorem chainBytes_buffers (addr : ℕ → ℕ) (b : UdpBuf) : chainBytes (b.buffers addr) = pbufBytes b.pbufs := by
  obtain ⟨ps, room⟩ := b
  rw [UdpBuf.buffers]
  dsimp only
  induction ps generalizing addr with
  | nil => rfl
  | cons p ps ih =>
    rw [List.mapIdx_cons, chainBytes, List.flatMap_cons, pbufBytes_cons]
    exact congrArg (p.payload ++ ·) (ih fun k ↦ addr (k + 1))

/-- **One number is left** for each sum: it is not zero. -/
theorem stored_unique {x y total : ℕ} (hx : 0 < x ∧ x < 2 ^ 16) (hy : 0 < y ∧ y < 2 ^ 16)
    (hxt : (x + total) % (2 ^ 16 - 1) = 0) (hyt : (y + total) % (2 ^ 16 - 1) = 0) : x = y := by
  omega

/-- "chksum zero must become 0xffff": the complement of a sum is as good with either zero. -/
theorem stored_spec {x total : ℕ} (hx : x < 2 ^ 16) (hxt : (x + total) % (2 ^ 16 - 1) = 0) :
    (0 < (if x = 0 then 0xffff else x) ∧ (if x = 0 then 0xffff else x) < 2 ^ 16) ∧
      ((if x = 0 then 0xffff else x) + total) % (2 ^ 16 - 1) = 0 := by
  split_ifs with hzero
  · exact ⟨⟨by decide, by decide⟩, by omega⟩
  · exact ⟨⟨Nat.pos_of_ne_zero hzero, hx⟩, hxt⟩

/-- No buffer is longer than its `len` can say. -/
theorem UdpBuf.Headed.buffers_le {q : UdpBuf} {hdr data : List (BitVec 8)} {n : ℕ} (hq : q.Headed hdr data n)
    (hn : hdr.length + n < 2 ^ 16) (hdata : data.length < 2 ^ 16) (addr : ℕ → ℕ) :
    ∀ b ∈ q.buffers addr, b.bytes.length ≤ 2 ^ 16 - 1 := by
  obtain ⟨pay, totLen, ps, hb, rfl, rfl⟩ := hq.shape
  intro b hmem
  rw [UdpBuf.buffers, hb, List.mapIdx_cons] at hmem
  rcases List.mem_cons.1 hmem with rfl | hmem
  · rw [List.length_append]
    exact Nat.le_pred_of_lt hn
  · obtain ⟨k, hk, rfl⟩ := List.mem_mapIdx.1 hmem
    have hle : ps[k].payload.length ≤ (pbufBytes ps).length :=
      (List.sublist_flatten_of_mem (List.mem_map_of_mem (List.getElem_mem hk))).length_le
    rw [List.length_append] at hdata
    exact Nat.le_pred_of_lt (lt_of_le_of_lt (hle.trans (Nat.le_add_left _ _)) hdata)

namespace UdpSend

variable {cfg : UdpConf} {c : UdpSend} {q : UdpBuf} {src chksum n : ℕ} {S : BitVec 16}

theorem data_lt (c : UdpSend) : c.data.length < 2 ^ 16 := c.p.lt

/-- The pseudo header of a datagram. -/
def pseudo (c : UdpSend) : List (BitVec 8) :=
  pseudoHeader c.netif.ipAddr c.dstIp ipProtoUdp (BitVec.ofNat 16 ((udpHlen + c.data.length) % 2 ^ 16))

/-- The sum of all that the checksum is made of. -/
def total (c : UdpSend) (src : ℕ) : ℕ :=
  memSum (c.pseudo ++ udpHdr src c.dstPort ((udpHlen + c.data.length) % 2 ^ 16) 0) + memSum c.data

/-- With a checksum in its place, which the sum grows by. -/
theorem memSum_datagram (c : UdpSend) (src : ℕ) (hc : chksum < 2 ^ 16) :
    memSum (c.pseudo ++ (udpHdr src c.dstPort ((udpHlen + c.data.length) % 2 ^ 16) chksum ++ c.data)) =
      c.total src + chksum := by
  have hsplit : ∀ x, c.pseudo ++ (udpHdr src c.dstPort ((udpHlen + c.data.length) % 2 ^ 16) x ++ c.data) =
      (c.pseudo ++ (netU16 src ++ netU16 c.dstPort ++ netU16 ((udpHlen + c.data.length) % 2 ^ 16))) ++
        (storeU16 x ++ c.data) := fun x ↦ by
    simp only [udpHdr, List.append_assoc]
  have hbefore : (c.pseudo ++ (netU16 src ++ netU16 c.dstPort ++ netU16 ((udpHlen + c.data.length) % 2 ^ 16))).length =
      18 := rfl
  have hall : (c.pseudo ++ udpHdr src c.dstPort ((udpHlen + c.data.length) % 2 ^ 16) 0).length = 20 := rfl
  rw [hsplit, memSum_field (by rw [hbefore]) hc, ← hsplit, ← List.append_assoc, memSum_append_of_even (by rw [hall]),
    total]

/-- **With the sum of the data**, the header alone is summed. -/
theorem udpChksum_fast (hq : q.Headed (udpHdr src c.dstPort ((udpHlen + c.data.length) % 2 ^ 16) 0) c.data n)
    (hn : udpHlen + n < 2 ^ 16) (hnochksum : c.nochksum = false) (hhave : c.haveChksum = true)
    (hS : c.chksum.toNat ≡ memSum c.data [MOD 2 ^ 16 - 1]) :
    ∃ x < 2 ^ 16, c.udpChksum cfg q c.netif.ipAddr = some (if x = 0 then 0xffff else x) ∧
      (x + c.total src) % (2 ^ 16 - 1) = 0 := by
  obtain ⟨pay, qs, hbuf, hpay⟩ := buffers_headed hq c.addr
  have htot : q.totLen = (udpHlen + c.data.length) % 2 ^ 16 := hq.totLen_eq
  set hdr := udpHdr src c.dstPort ((udpHlen + c.data.length) % 2 ^ 16) 0 with hhdr
  have hshort : (hdr ++ pay).length < 2 ^ 16 := by
    rwa [List.length_append, hpay]
  obtain ⟨sum, hsum, hpartial, heq, -⟩ := pseudoPartial_header (q := ⟨c.addr 0, hdr ++ pay⟩) cfg.alg qs c.netif.ipAddr
    c.dstIp ipProtoUdp (BitVec.ofNat 16 q.totLen) rfl (List.cons_ne_nil _ _) hshort
  rw [htot] at heq
  have hchksum := c.chksum.isLt
  set acc := 2 ^ 16 - 1 - sum + (2 ^ 16 - 1 - c.chksum.toNat) with hacc
  have hfold_lt : foldHalves acc < 2 ^ 16 := foldHalves_lt (by omega)
  obtain ⟨hfold, -⟩ := onesEq_foldHalves acc
  refine ⟨foldHalves acc, hfold_lt, ?_, ?_⟩
  · rw [udpChksum, if_neg (by rw [hnochksum]; exact Bool.false_ne_true), if_pos hhave, hbuf]
    rw [show BitVec.ofNat 16 udpHlen = BitVec.ofNat 16 hdr.length from rfl, hpartial, Option.map_some, Option.map_some,
      foldU32_eq, Nat.mod_eq_of_lt hfold_lt]
  · have htotal : c.total src = memSum (c.pseudo ++ hdr) + memSum c.data := rfl
    have hmod : c.chksum.toNat % (2 ^ 16 - 1) = memSum c.data % (2 ^ 16 - 1) := hS
    have hheader : sum % (2 ^ 16 - 1) = memSum (c.pseudo ++ hdr) % (2 ^ 16 - 1) := heq
    omega

/-- **Without it**, all of the datagram is. -/
theorem udpChksum_plain (hq : q.Headed (udpHdr src c.dstPort ((udpHlen + c.data.length) % 2 ^ 16) 0) c.data n)
    (hn : udpHlen + n < 2 ^ 16) (hnochksum : c.nochksum = false) (hhave : c.haveChksum = false) :
    ∃ x < 2 ^ 16, c.udpChksum cfg q c.netif.ipAddr = some (if x = 0 then 0xffff else x) ∧
      (x + c.total src) % (2 ^ 16 - 1) = 0 := by
  obtain ⟨pay, qs, hbuf, hpay⟩ := buffers_headed hq c.addr
  have htot : q.totLen = (udpHlen + c.data.length) % 2 ^ 16 := hq.totLen_eq
  obtain ⟨hsum, hsum_lt⟩ := onesEq_chainSum_of_pbufs cfg.alg (hq.buffers_le hn c.data_lt c.addr)
  rw [chainBytes_buffers, hq.bytes] at hsum
  obtain ⟨sum, hlt, hend, heq, -⟩ := pseudoEnd_spec c.netif.ipAddr c.dstIp ipProtoUdp (BitVec.ofNat 16 q.totLen) hsum_lt
    hsum
  rw [htot] at heq
  refine ⟨2 ^ 16 - 1 - sum, by omega, ?_, ?_⟩
  · rw [udpChksum, if_neg (by rw [hnochksum]; exact Bool.false_ne_true),
      if_neg (by rw [hhave]; exact Bool.false_ne_true), inetChksumPseudo_eq_pseudoEnd, hend, Option.map_some]
  · have hbytes : sum % (2 ^ 16 - 1) = (c.total src + 0) % (2 ^ 16 - 1) := by
      rw [← c.memSum_datagram src (Nat.two_pow_pos 16)]
      exact heq
    omega

/-- **The checksum that is stored**, in either way. -/
theorem stores_spec (h : c.Stores cfg src chksum n) (hnochksum : c.nochksum = false)
    (hS : c.haveChksum = true → c.chksum.toNat ≡ memSum c.data [MOD 2 ^ 16 - 1]) :
    (0 < chksum ∧ chksum < 2 ^ 16) ∧ (chksum + c.total src) % (2 ^ 16 - 1) = 0 := by
  obtain ⟨hn, q, hq, hchksum⟩ := h
  have hx : ∃ x < 2 ^ 16, c.udpChksum cfg q c.netif.ipAddr = some (if x = 0 then 0xffff else x) ∧
      (x + c.total src) % (2 ^ 16 - 1) = 0 := by
    rcases hhave : c.haveChksum with _ | _
    · exact udpChksum_plain hq hn hnochksum hhave
    · exact udpChksum_fast hq hn hnochksum hhave (hS hhave)
  obtain ⟨x, hlt, hcall, hsum⟩ := hx
  rw [hchksum, Option.some.injEq] at hcall
  rw [hcall]
  exact stored_spec hlt hsum

/-- The call with the sum of the data, and the call without. -/
def withSum (c : UdpSend) (S : BitVec 16) : UdpSend := { c with haveChksum := true, chksum := S }

def withoutSum (c : UdpSend) : UdpSend := { c with haveChksum := false }

/-- **Both ways come to one number.** -/
theorem udpChksum_withSum (hq : q.Headed (udpHdr src c.dstPort ((udpHlen + c.data.length) % 2 ^ 16) 0) c.data n)
    (hn : udpHlen + n < 2 ^ 16) (hS : S.toNat ≡ memSum c.data [MOD 2 ^ 16 - 1]) :
    (c.withSum S).udpChksum cfg q c.netif.ipAddr = c.withoutSum.udpChksum cfg q c.netif.ipAddr := by
  rcases hnochksum : c.nochksum with _ | _
  · obtain ⟨x, hx⟩ := udpChksum_isSome hq (length_udpHdr ..) hn cfg (c.withSum S) c.netif.ipAddr
    obtain ⟨y, hy⟩ := udpChksum_isSome hq (length_udpHdr ..) hn cfg c.withoutSum c.netif.ipAddr
    have hstores : (c.withSum S).Stores cfg src x n := ⟨hn, q, hq, hx⟩
    have hstores' : c.withoutSum.Stores cfg src y n := ⟨hn, q, hq, hy⟩
    obtain ⟨hx0, hxt⟩ := stores_spec hstores hnochksum fun _ ↦ hS
    obtain ⟨hy0, hyt⟩ := stores_spec hstores' hnochksum nofun
    rw [hx, hy, stored_unique hx0 hy0 hxt hyt]
  · exact (if_pos hnochksum).trans (if_pos hnochksum).symm

/-- What `withHeader` returns has room for the header. -/
theorem headed_of_withHeader (h : c.withHeader = some (.ok q)) (hlen : ¬q.len < udpHlen) :
    ∃ junk n, junk.length = udpHlen ∧ udpHlen + n < 2 ^ 16 ∧ q.Headed junk c.data n := by
  obtain ⟨hnomem, hplace⟩ := c.withHeader_spec
  obtain ⟨q', junk, hq', hjunk, hheaded, -⟩ := hplace fun hmem ↦ by
    rw [hnomem hmem] at h
    cases h
  rw [hq', Option.some.injEq, Except.ok.injEq] at h
  subst h
  have hqlen := hheaded.len_eq
  rw [hjunk] at hqlen
  refine ⟨junk, _, hjunk, ?_, hheaded⟩
  have hp : c.p.len < 2 ^ 16 := Nat.mod_lt _ (by decide)
  have h8 : udpHlen = 8 := rfl
  split_ifs at hqlen ⊢ <;> omega

/-- **Both ways send the same packet.** -/
theorem udpSendtoIf_withSum (cfg : UdpConf) (c : UdpSend) (s : UdpState)
    (hS : S.toNat ≡ memSum c.data [MOD 2 ^ 16 - 1]) :
    (c.withSum S).udpSendtoIf cfg s = c.withoutSum.udpSendtoIf cfg s := by
  rw [udpSendtoIf, udpSendtoIf]
  refine ite_congr rfl (fun _ ↦ rfl) fun _ ↦ Option.bind_congr fun r hr ↦ ite_congr rfl (fun _ ↦ rfl) fun _ ↦
    Option.bind_congr fun w hw ↦ ?_
  rcases w with e | q
  · rfl
  · dsimp only
    refine ite_congr rfl (fun _ ↦ rfl) fun hlen ↦ ?_
    obtain ⟨junk, n, hjunk, hn, hq⟩ := headed_of_withHeader (c := c) hw hlen
    obtain ⟨hmisplaced, hplaced⟩ := c.srcIp_spec r.2
    have hsrc : (c.withSum S).srcIp r.2 = c.withoutSum.srcIp r.2 := rfl
    have hsame : c.withoutSum.srcIp r.2 = c.srcIp r.2 := rfl
    rw [hsrc, hsame]
    rcases Classical.em (c.Misplaced r.2) with hmis | hmis
    · rw [hmisplaced hmis]
    · rw [hplaced hmis]
      dsimp only
      have htot : q.totLen = (udpHlen + c.data.length) % 2 ^ 16 := hjunk ▸ hq.totLen_eq
      rw [← List.append_nil junk] at hq
      obtain ⟨hzero, -, -⟩ := hq.write (udpHdr (r.2.pcb c.pcb).localPort c.dstPort q.totLen 0) hjunk.symm
      rw [List.append_nil] at hzero
      exact congrArg (Option.bind · _) (udpChksum_withSum (by rw [← htot]; exact hzero) hn hS)

/-! ### The other end -/

/-- An address is read as it was written. -/
theorem ofNat_loadU32 (x : U32) : BitVec.ofNat 32 (loadU32 (x.extractLsb' 0 8) (x.extractLsb' 8 8) (x.extractLsb' 16 8)
    (x.extractLsb' 24 8)) = x := by
  refine BitVec.eq_of_toNat_eq ?_
  have hx := x.isLt
  simp only [BitVec.toNat_ofNat, loadU32, loadU16, BitVec.extractLsb'_toNat, Nat.shiftRight_eq_div_pow]
  omega

/-- What `udp_input` reads of the header of IP. -/
theorem ipHdr_read (c : UdpSend) (ipChksum : ℕ) (rest : List (BitVec 8)) (behind : ℕ → BitVec 8) :
    (readHdr (bytesAt (c.ipHdr ipChksum ++ rest) behind)).hl * 4 = ipHlen ∧
      (readHdr (bytesAt (c.ipHdr ipChksum ++ rest) behind)).srcAddr = c.netif.ipAddr ∧
      (readHdr (bytesAt (c.ipHdr ipChksum ++ rest) behind)).destAddr = c.dstIp := by
  refine ⟨?_, ofNat_loadU32 c.netif.ipAddr, ofNat_loadU32 c.dstIp⟩
  have hhlen : ipHlen + (alignedOptions []).length = ipHlen := by decide
  rw [ipHdr]
  exact (readHdr_outHdr .little (by exact Nat.zero_le 40) _ (Nat.mod_lt _ (by decide)) _ _ _ behind).2.1.trans hhlen

/-- **`udp_input` takes a datagram** with such a checksum, for every chain that holds it, if the first pbuf holds the
header of IP. -/
theorem udpInput_accepts (alg : ChksumAlgorithm) (addr : ℕ → ℕ) (behind : ℕ → BitVec 8) {ps : List Pbuf}
    {ipChksum : ℕ} (htotals : Totals ps) (hlen : (pbufBytes ps).length < 2 ^ 16)
    (hfirst : ipHlen ≤ (firstBytes ps).length) (hbytes : pbufBytes ps = c.ipHdr ipChksum ++
      (udpHdr src c.dstPort ((udpHlen + c.data.length) % 2 ^ 16) chksum ++ c.data))
    (hstored : 0 < chksum ∧ chksum < 2 ^ 16) (hsum : (chksum + c.total src) % (2 ^ 16 - 1) = 0) :
    udpInputAccepts alg addr behind ps = true := by
  have hip := c.length_ipHdr ipChksum
  rcases ps with - | ⟨p, ps⟩
  · exact absurd hfirst (by decide)
  -- the first pbuf begins with the header
  obtain ⟨rest, hrest⟩ : c.ipHdr ipChksum <+: p.payload :=
    List.prefix_of_prefix_length_le ⟨_, hbytes.symm⟩ (List.prefix_append p.payload (pbufBytes ps)) (hip ▸ hfirst)
  obtain ⟨hhl, hsrc, hdest⟩ := c.ipHdr_read ipChksum rest behind
  obtain ⟨q, hq, hqtotals, -, hqbytes⟩ := htotals.hide hfirst hlen
  rw [hbytes, List.drop_left' hip] at hqbytes
  have htot := htotals.totLen_eq
  have hqtot := hqtotals.totLen_eq
  have hqlen : (pbufBytes q).length = udpHlen + c.data.length := by
    rw [hqbytes, List.length_append, length_udpHdr]
  rw [hbytes, List.length_append, hip, ← hqbytes, hqlen] at htot hlen
  have hread : firstBytes (p :: ps) = c.ipHdr ipChksum ++ rest := hrest.symm
  simp only [udpInputAccepts, hread, hhl, hsrc, hdest, hq]
  rw [if_neg (by omega)]
  split_ifs
  · have hbuf := chainBytes_buffers addr ⟨q, 0⟩
    obtain ⟨hcall, heq, hlt⟩ := inetChksumPseudo_eq c.netif.ipAddr c.dstIp ipProtoUdp (BitVec.ofNat 16 (pbufTotLen q))
      alg (p := UdpBuf.buffers addr ⟨q, 0⟩) (by rw [hbuf, hqlen]; omega)
    have hpseudo : memSum (pseudoHeader c.netif.ipAddr c.dstIp ipProtoUdp (BitVec.ofNat 16 (pbufTotLen q)) ++
        chainBytes (UdpBuf.buffers addr ⟨q, 0⟩)) = c.total src + chksum := by
      rw [hbuf, hqbytes, ← c.memSum_datagram src hstored.2, pseudo, hqtot, hqlen, Nat.mod_eq_of_lt (by omega)]
    rw [hpseudo] at heq
    rw [hcall, decide_eq_true_iff, heq.compl_eq_zero_iff hlt]
    omega
  · rfl

/-- **What is known of a packet that is sent**: the checksum that it has was stored. -/
theorem udpSendtoIf_ok {s s' : UdpState} {k : UdpBuf} (h : c.udpSendtoIf cfg s = some (s', .ok k)) :
    ∃ ipChksum chksum src n, c.Stores cfg src chksum n ∧ k.Headed (c.ipHdr ipChksum ++
      udpHdr src c.dstPort ((udpHlen + c.data.length) % 2 ^ 16) chksum) c.data n := by
  have hcall := h
  rw [udpSendtoIf] at h
  rcases Decidable.em (c.filtered cfg = true) with hfilter | hfilter
  · rw [if_pos hfilter] at h
    cases h
  rw [if_neg hfilter] at h
  obtain ⟨⟨e, t⟩, hbind, h⟩ := Option.bind_eq_some_iff.1 h
  dsimp only at h
  rcases Decidable.em (e = .ok) with rfl | hne
  swap
  · rw [if_pos hne] at h
    cases h
  rw [if_neg (not_not.2 rfl)] at h
  obtain ⟨w, hwith, h⟩ := Option.bind_eq_some_iff.1 h
  rcases w with e | q
  · cases h
  · dsimp only at h
    have hlen : ¬q.len < udpHlen := fun hlen ↦ by
      rw [if_pos hlen] at h
      cases h
    obtain ⟨junk, n, hjunk, hn, hq⟩ := headed_of_withHeader hwith hlen
    obtain ⟨herror, hnone, hok⟩ := udpSendtoIf_cases hfilter hbind hwith hq hjunk (by omega)
    rcases Classical.em (c.Misplaced t ∨ q.room < ipHlen) with hwhy | hwhy
    · obtain ⟨e, he⟩ := herror hn hwhy
      rw [hcall] at he
      cases he
    obtain ⟨hplaced, hroom⟩ := not_or.1 hwhy
    rcases lt_or_ge (ipHlen + udpHlen + n) (2 ^ 16) with hfit | hbig
    · obtain ⟨k', ipChksum, chksum, hk', hstores, hheaded⟩ := hok hplaced (not_lt.1 hroom) hfit
      rw [hcall, Option.some.injEq, Prod.mk.injEq, Except.ok.injEq] at hk'
      obtain ⟨rfl, rfl⟩ := hk'
      exact ⟨ipChksum, chksum, _, n, hstores, hheaded⟩
    · rw [hnone (.inr ⟨⟨hplaced, not_lt.1 hroom⟩, hbig⟩)] at hcall
      cases hcall

/-- The field of the checksum, which is not in network order. -/
theorem chksum_read {k : UdpBuf} {ipChksum len : ℕ}
    (hk : k.Headed (c.ipHdr ipChksum ++ udpHdr src c.dstPort len chksum) c.data n) (behind : ℕ → BitVec 8) :
    readU16 (bytesAt (pbufBytes k.pbufs) behind) (ipHlen + 6) = swap16 chksum := by
  have hbytes : pbufBytes k.pbufs = (c.ipHdr ipChksum ++ (netU16 src ++ netU16 c.dstPort ++ netU16 len)) ++
      (storeU16 chksum ++ c.data) := by
    rw [hk.bytes, udpHdr]
    simp only [List.append_assoc]
  have hlen : (c.ipHdr ipChksum ++ (netU16 src ++ netU16 c.dstPort ++ netU16 len)).length = ipHlen + 6 := by
    rw [List.length_append, length_ipHdr]
    rfl
  rw [hbytes, ← hlen, ← Nat.add_zero (List.length _), readU16_append]
  show (BitVec.ofNat 8 chksum).toNat * 2 ^ 8 + (BitVec.ofNat 8 (chksum / 2 ^ 8)).toNat = _
  rw [BitVec.toNat_ofNat, BitVec.toNat_ofNat, swap16]

/-- **The sum of the data may be given**: then the same packet is sent; its checksum is not zero, and `udp_input` takes
it, for every chain that holds it with the header of IP in its first pbuf. -/
theorem udpSendto_chksum (cfg : UdpConf) (c : UdpSend) (s : UdpState) (S : BitVec 16)
    (hS : S.toNat ≡ memSum c.data [MOD 2 ^ 16 - 1]) :
    (c.withSum S).udpSendtoIf cfg s = c.withoutSum.udpSendtoIf cfg s ∧
    (c.nochksum = false → ∀ s' k, (c.withSum S).udpSendtoIf cfg s = some (s', .ok k) →
      (∀ behind, readU16 (bytesAt (pbufBytes k.pbufs) behind) (ipHlen + 6) ≠ 0) ∧
      ∀ alg addr behind ps, Totals ps → (pbufBytes ps).length < 2 ^ 16 → ipHlen ≤ (firstBytes ps).length →
        pbufBytes ps = pbufBytes k.pbufs → udpInputAccepts alg addr behind ps = true) := by
  refine ⟨udpSendtoIf_withSum cfg c s hS, fun hnochksum s' k hcall ↦ ?_⟩
  obtain ⟨ipChksum, chksum, src, n, hstores, hk⟩ := udpSendtoIf_ok hcall
  obtain ⟨hstored, hsum⟩ := stores_spec hstores hnochksum fun _ ↦ hS
  refine ⟨fun behind ↦ ?_, fun alg addr behind ps htotals hlen hfirst hbytes ↦ ?_⟩
  · rw [chksum_read hk behind, swap16]
    omega
  · rw [hk.bytes, List.append_assoc] at hbytes
    exact udpInput_accepts alg addr behind htotals hlen hfirst hbytes hstored hsum

/-- Two pbufs, of which the first has an odd length. -/
def oddPacket : UdpPacket where
  pbufs := [⟨[1, 2, 3], 5⟩, ⟨[4, 5], 2⟩]
  room := 0
  ne_nil := List.cons_ne_nil _ _
  totals := by decide
  lt := by decide

theorem udpSendto_chksum_odd : ∃ s' k,
    ((refSend false oddPacket).withSum 0x0609).udpSendtoIf ⟨false, true, .two⟩ oneBound = some (s', .ok k) ∧
      (refSend false oddPacket).withoutSum.udpSendtoIf ⟨false, true, .two⟩ oneBound = some (s', .ok k) ∧
        ∀ alg addr behind, udpInputAccepts alg addr behind [⟨pbufBytes k.pbufs, 33⟩] = true := by
  obtain ⟨heq, hgood⟩ := udpSendto_chksum ⟨false, true, .two⟩ (refSend false oddPacket) oneBound 0x0609
    (by decide : (0x0609 : BitVec 16).toNat ≡ memSum [1, 2, 3, 4, 5] [MOD 2 ^ 16 - 1])
  obtain ⟨s', k, ipChksum, src, chksum, n, hcall, hk⟩ := refSend_spec false (show oddPacket.room = 0 from rfl)
  have hcall' : (refSend false oddPacket).withoutSum.udpSendtoIf ⟨false, true, .two⟩ oneBound = some (s', .ok k) :=
    hcall
  have hlen : (pbufBytes k.pbufs).length = 33 := by
    rw [hk.bytes, List.length_append, List.length_append, length_ipHdr, length_udpHdr]
    rfl
  refine ⟨s', k, heq.trans hcall', hcall', fun alg addr behind ↦ ?_⟩
  refine (hgood rfl s' k (heq.trans hcall')).2 alg addr behind _ ⟨?_, trivial⟩ ?_ ?_ pbufBytes_single
  · rw [pbufBytes_single, hlen]
  · rw [pbufBytes_single, hlen]
    decide
  · show ipHlen ≤ (pbufBytes k.pbufs).length
    rw [hlen]
    decide

end UdpSend

end Lwip.Udp
