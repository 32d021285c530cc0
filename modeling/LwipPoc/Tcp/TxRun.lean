import LwipPoc.Tcp.TxChksum

/-!
# Runs on segments in memory

All that is done with the segments of a connection, in any order: `tcp_write`, `tcp_enqueue_flags` and `tcp_send_fin`
make and change them, `tcp_output` sends them, the retransmissions move them back, and acknowledgments free them. What
else changes in the control block is left open, but for the sizes of the fields.

**Every segment on the queues can be sent** in every state of every run (`txStep_good`), and the checksum of every segment
that is handed to `ip_output` is right as long as no call of `tcp_write` adds to a sum the wrong way round
(`run_verifies`).
-/

namespace Lwip.Tcp.Tx

open Lwip.Core (PbufLayer PbufType sizeofStructPbuf)
open Lwip.Ipv4 (memSum)

variable (cfg : TxConf) (mem : ℕ → Option ℕ)

/-! ### Steps -/

/-- What the rest of the stack and the application do to the control block: input of the peer, `tcp_nagle_disable` and so
on. -/
structure TxChange where
  state : TcpState
  nodelay : Bool
  nagleMemErr : Bool
  timestamp : Bool
  localPort : ℕ
  remotePort : ℕ
  mss : ℕ
  sndWndMax : ℕ
  /-- A `u16_t`. -/
  sndWndMax_lt : sndWndMax < 2 ^ 16
  sndBuf : ℕ
  /-- It is no more than `TCP_SND_BUF + 1`. -/
  sndBuf_lt : sndBuf < 2 ^ 15

/-- What is done. -/
inductive TxLabel
  | write (c : WriteCall)
  | enqueueFlags (flags : BitVec 6)
  | sendFin
  | output (o : OutCall)
  | rexmitRto
  | rexmit
  | ackUnacked
  | ackUnsent
  /-- `tcp_pcb_purge`. -/
  | purge
  | other (e : TxChange)

/-- A connection, the memory, and what was handed to `ip_output`. -/
structure TxState where
  pcb : TxPcb
  pools : Pools
  sent : List TxPacket

/-- The control block with its new fields. -/
def TxPcb.change (s : TxPcb) (e : TxChange) : TxPcb :=
  { s with
    state := e.state
    nodelay := e.nodelay
    nagleMemErr := e.nagleMemErr
    timestamp := e.timestamp
    localPort := e.localPort
    remotePort := e.remotePort
    mss := e.mss
    sndWndMax := e.sndWndMax
    sndBuf := e.sndBuf }

/-- `tcp_pcb_purge`. -/
def tcpPcbPurge (s : TxPcb) (m : Pools) : Option (TxPcb × Pools) :=
  (tcpSegsFree s.unsent m).bind fun m ↦
    (tcpSegsFree s.unacked m).map fun m ↦ ({ s with unsent := [], unacked := [], unsentOversize := 0 }, m)

/-- One step. -/
def txStep : TxLabel → TxState → Option TxState
  | .write c, s => (tcpWrite cfg mem s.pcb c s.pools).map fun r ↦ { s with pcb := r.2.1, pools := r.2.2 }
  | .enqueueFlags flags, s =>
    (tcpEnqueueFlags cfg mem s.pcb flags s.pools).map fun r ↦ { s with pcb := r.2.1, pools := r.2.2 }
  | .sendFin, s => (tcpSendFin cfg mem s.pcb s.pools).map fun r ↦ { s with pcb := r.2.1, pools := r.2.2 }
  | .output o, s =>
    (outputOne cfg s.pcb o s.pools).map fun r ↦ ⟨r.1, r.2.1, s.sent ++ r.2.2.toList⟩
  | .rexmitRto, s => some { s with pcb := tcpRexmitRto s.pcb }
  | .rexmit, s => some { s with pcb := tcpRexmit s.pcb }
  | .ackUnacked, s => (ackUnacked s.pcb s.pools).map fun r ↦ { s with pcb := r.1, pools := r.2 }
  | .ackUnsent, s => (ackUnsent s.pcb s.pools).map fun r ↦ { s with pcb := r.1, pools := r.2 }
  | .purge, s => (tcpPcbPurge s.pcb s.pools).map fun r ↦ { s with pcb := r.1, pools := r.2 }
  | .other e, s => some { s with pcb := s.pcb.change e }

/-- What a call of `tcp_write` adds the wrong way round makes no difference: its sum is the same both ways. -/
def Balanced : TxLabel → TxState → Prop
  | .write c, s => memSum (s.pcb.misplaced c) % 257 = 0
  | _, _ => True

instance (l : TxLabel) (s : TxState) : Decidable (Balanced l s) := by
  unfold Balanced
  split <;> infer_instance

/-- A connection without segments, and nothing sent. -/
structure TxState.Starts (s : TxState) : Prop where
  unsent : s.pcb.unsent = []
  unacked : s.pcb.unacked = []
  sndWndMax : s.pcb.sndWndMax < 2 ^ 16
  sndBuf : s.pcb.sndBuf < 2 ^ 15
  sent : s.sent = []

/-! ### What the steps do to the queues -/

variable {cfg mem} {s s' : TxPcb} {c : WriteCall} {m m' : Pools} {seg seg' x : TxSeg} {q : List TxSeg}
  {data : List Byte} {sums : Prop}

/-- **A control block with good segments only.** -/
structure TxPcb.Good (cfg : TxConf) (sums : Prop) (s : TxPcb) : Prop where
  segs : ∀ seg ∈ s.unsent ++ s.unacked, ∃ data, seg.Good cfg sums data
  sndWndMax : s.sndWndMax < 2 ^ 16
  sndBuf : s.sndBuf < 2 ^ 15

theorem TxSeg.Good.setFlag (h : seg.Good cfg sums data) (flag : BitVec 6) : (seg.setFlag flag).Good cfg sums data := by
  obtain ⟨front, hdr, hlaid⟩ := h.laid
  exact ⟨⟨front, hdr, hlaid.setFlag flag⟩, h.lt, h.flagged, h.sum⟩

theorem mem_insertSorted (h : x ∈ insertSorted seg q) : x = seg ∨ x ∈ q := by
  rcases List.mem_append.1 h with h | h
  · exact .inr ((List.takeWhile_prefix _).mem h)
  · rcases List.mem_cons.1 h with rfl | h
    · exact .inl rfl
    · exact .inr ((List.dropWhile_suffix _).mem h)

theorem mem_insertUnacked (h : x ∈ insertUnacked seg q) : x = seg ∨ x ∈ q := by
  rw [insertUnacked] at h
  split at h
  · exact .inl (List.mem_singleton.1 h)
  · split_ifs at h
    · exact mem_insertSorted h
    · rcases List.mem_append.1 h with h | h
      · exact .inr h
      · exact .inl (List.mem_singleton.1 h)

/-- Segments that were there, on queues of any order. -/
theorem TxPcb.Good.keep (h : s.Good cfg sums)
    (hsegs : ∀ seg ∈ s'.unsent ++ s'.unacked, seg ∈ s.unsent ++ s.unacked ∨ ∃ data, seg.Good cfg sums data)
    (hwnd : s'.sndWndMax = s.sndWndMax) (hbuf : s'.sndBuf ≤ s.sndBuf) : s'.Good cfg sums := by
  refine ⟨fun seg hseg ↦ ?_, hwnd ▸ h.sndWndMax, hbuf.trans_lt h.sndBuf⟩
  rcases hsegs seg hseg with hold | hnew
  · exact h.segs seg hold
  · exact hnew

/-- A segment that is sent. -/
theorem Sent.good {o : OutCall} {k : Option TxPacket} (h : Sent cfg o seg data seg' k) (hg : seg.Good cfg sums data) :
    seg'.Good cfg sums data := by
  obtain ⟨-, -, hflag, -, -⟩ := h.fixed
  rcases h.sum with ⟨hchk, hswapped⟩ | ⟨hchk, hswapped⟩
  · refine ⟨h.laid, hchk ▸ hg.lt, fun hcfg hplain ↦ hg.flagged hcfg (hflag ▸ hplain), fun hs ↦ ?_⟩
    rw [hchk, hswapped]
    exact hg.sum hs
  · refine ⟨h.laid, hchk ▸ TxSeg.dataSum_lt hg.lt, fun hcfg hplain ↦ hg.flagged hcfg (hflag ▸ hplain), fun hs ↦ ?_⟩
    rw [hchk, hswapped]
    exact (TxSeg.dataSum_modEq hg.lt).trans (hg.sum hs)

/-- **Sending the first segment.** -/
theorem outputOne_spec {o : OutCall} {k : Option TxPacket} (h : outputOne cfg s o m = some (s', m', k))
    (hg : s.Good cfg sums) : s'.Good cfg sums ∧ (sums → ∀ x ∈ k, x.Verifies cfg.alg) := by
  rw [outputOne] at h
  split at h
  · cases h
  next seg rest hunsent =>
  dsimp only at h
  obtain ⟨⟨seg', k'⟩, hout, h⟩ := Option.bind_eq_some_iff.1 h
  obtain ⟨data, hseg⟩ : ∃ data, (if s.state ≠ .synSent then seg.setFlag tcpAck else seg).Good cfg sums data := by
    obtain ⟨data, hseg⟩ := hg.segs seg (by rw [hunsent]; exact List.mem_append_left _ List.mem_cons_self)
    refine ⟨data, ?_⟩
    split_ifs
    · exact hseg.setFlag _
    · exact hseg
  obtain ⟨front, hdr, hlaid⟩ := hseg.laid
  obtain ⟨seg'', k'', hout', hsent⟩ := tcpOutputSegment_spec (o := o) hlaid hseg.lt hseg.flagged
  obtain ⟨rfl, rfl⟩ := Prod.mk.inj (Option.some.inj (hout'.symm.trans hout))
  have hrest : ∀ x ∈ rest, x ∈ s.unsent := fun x hx ↦ hunsent ▸ List.mem_cons_of_mem _ hx
  have hverifies : sums → ∀ x ∈ k'', x.Verifies cfg.alg := fun hs x hx ↦
    (hsent.verifies x hx).2 fun _ ↦ (TxSeg.dataSum_modEq hseg.lt).trans (hseg.sum hs)
  dsimp only at h
  split at h
  · cases h
    refine ⟨hg.keep (fun x hx ↦ ?_) rfl le_rfl, hverifies⟩
    rcases List.mem_append.1 hx with hx | hx
    · exact .inl (List.mem_append_left _ (hrest x hx))
    · rcases mem_insertUnacked hx with rfl | hx
      · exact .inr ⟨data, hsent.good hseg⟩
      · exact .inl (List.mem_append_right _ hx)
  · obtain ⟨m₁, -, heq⟩ := Option.map_eq_some_iff.1 h
    cases heq
    refine ⟨hg.keep (fun x hx ↦ ?_) rfl le_rfl, hverifies⟩
    rcases List.mem_append.1 hx with hx | hx
    · exact .inl (List.mem_append_left _ (hrest x hx))
    · exact .inl (List.mem_append_right _ hx)

theorem tcpRexmitRto_good (hg : s.Good cfg sums) : (tcpRexmitRto s).Good cfg sums := by
  refine hg.keep (fun x hx ↦ .inl ?_) rfl le_rfl
  rw [tcpRexmitRto, List.append_nil] at hx
  rcases List.mem_append.1 hx with hx | hx
  · exact List.mem_append_right _ hx
  · exact List.mem_append_left _ hx

theorem tcpRexmit_good (hg : s.Good cfg sums) : (tcpRexmit s).Good cfg sums := by
  rw [tcpRexmit]
  split
  · exact hg
  next seg rest hunacked =>
  refine hg.keep (fun x hx ↦ .inl ?_) rfl le_rfl
  have hall : ∀ x ∈ seg :: rest, x ∈ s.unsent ++ s.unacked := fun x hx ↦ List.mem_append_right _ (hunacked ▸ hx)
  rcases List.mem_append.1 hx with hx | hx
  · rcases mem_insertSorted hx with rfl | hx
    · exact hall x List.mem_cons_self
    · exact List.mem_append_left _ hx
  · exact hall x (List.mem_cons_of_mem _ hx)

theorem ackUnacked_good (h : ackUnacked s m = some (s', m')) (hg : s.Good cfg sums) : s'.Good cfg sums := by
  rw [ackUnacked] at h
  split at h
  · cases h
  next seg rest hunacked =>
  split at h
  · obtain ⟨m₁, -, heq⟩ := Option.map_eq_some_iff.1 h
    cases heq
    refine hg.keep (fun x hx ↦ .inl ?_) rfl le_rfl
    rw [hunacked]
    rcases List.mem_append.1 hx with hx | hx
    · exact List.mem_append_left _ hx
    · exact List.mem_append_right _ (List.mem_cons_of_mem _ hx)
  · cases h

theorem ackUnsent_good (h : ackUnsent s m = some (s', m')) (hg : s.Good cfg sums) : s'.Good cfg sums := by
  rw [ackUnsent] at h
  split at h
  · cases h
  next seg rest hunsent =>
  split at h
  · obtain ⟨m₁, -, heq⟩ := Option.map_eq_some_iff.1 h
    cases heq
    refine hg.keep (fun x hx ↦ .inl ?_) rfl le_rfl
    rw [hunsent]
    exact List.mem_cons_of_mem _ hx
  · cases h

theorem tcpPcbPurge_good (h : tcpPcbPurge s m = some (s', m')) (hg : s.Good cfg sums) : s'.Good cfg sums := by
  obtain ⟨m₁, -, h⟩ := Option.bind_eq_some_iff.1 h
  obtain ⟨m₂, -, heq⟩ := Option.map_eq_some_iff.1 h
  cases heq
  exact hg.keep (fun x hx ↦ by cases hx) rfl le_rfl

theorem mem_mapLast {f : TxSeg → TxSeg} (h : x ∈ mapLast f q) : x ∈ q ∨ ∃ last ∈ q, x = f last := by
  rw [mapLast] at h
  split at h
  · exact .inl h
  next last hlast =>
  rcases List.mem_append.1 h with h | h
  · exact .inl (List.dropLast_subset _ h)
  · exact .inr ⟨last, List.mem_of_getLast? hlast, List.mem_singleton.1 h⟩

/-- **A new segment of `tcp_write`.** -/
theorem NewSeg.good {pos : ℕ} (h : NewSeg cfg s c pos data seg) (hlen : data.length < 2 ^ 16)
    (hsums : sums → cfg.checksumOnCopy = true) : seg.Good cfg sums data := by
  obtain ⟨dst, hsum⟩ := h.sum
  by_cases hcfg : cfg.checksumOnCopy = true
  · have hright : SumOf (seg.chksum, seg.chksumSwapped) data := by
      rw [hsum]
      split_ifs
      · exact (copySum_spec hcfg dst hlen).1
      · obtain ⟨heq, hlt⟩ := Ipv4.onesEq_lwipChksum cfg.alg (b := ⟨c.argAddr + pos, data⟩) (Nat.le_pred_of_lt hlen)
        rw [nocopyChksum_eq hcfg _ hlen]
        exact ⟨hlt, heq.mod_eq⟩
    refine ⟨⟨_, _, h.laid⟩, hright.lt, fun _ hplain ↦ ?_, fun _ ↦ hright.eq⟩
    rw [h.dataChecksummed, hcfg] at hplain
    cases hplain
  · refine ⟨⟨_, _, h.laid⟩, ?_, fun h ↦ absurd h hcfg, fun h ↦ absurd (hsums h) hcfg⟩
    have hzero : (seg.chksum, seg.chksumSwapped) = (0, false) := by
      rw [hsum, TxConf.copySum, TxConf.addSum, if_neg hcfg, TxConf.nocopyChksum, if_neg hcfg, ite_self]
    rw [(Prod.mk.inj hzero).1]
    exact Nat.two_pow_pos 16

theorem TxPcb.optlen_le (cfg : TxConf) (s : TxPcb) : s.optlen cfg ≤ 12 := by
  rw [TxPcb.optlen, optLength, if_neg Bool.false_ne_true]
  split_ifs <;> decide

/-- **`tcp_write`** keeps all segments good, where what it adds is balanced. -/
theorem tcpWrite_good {r : Err} (h : tcpWrite cfg mem s c m = some (r, s', m')) (hg : s.Good cfg sums)
    (hsums : sums → cfg.checksumOnCopy = true) (hbalanced : sums → memSum (s.misplaced c) % 257 = 0) :
    s'.Good cfg sums := by
  rcases tcpWrite_cases h with rfl | ⟨-, rfl, -⟩ | ⟨-, rfl, -⟩
  · obtain ⟨v, q, new, hw⟩ := tcpWrite_ok h
    have hle := hw.length_le
    have hbuf := hg.sndBuf
    have hopt := TxPcb.optlen_le cfg s
    have hpiece : ∀ pos, (piece cfg s c pos).length ≤ c.arg.length := fun pos ↦ by
      rw [piece, List.length_take, List.length_drop]
      omega
    have hnew : NewSegs cfg s c v.pos new := hw.newSegs hg.sndWndMax fun pos ↦ by
      have := hpiece pos
      omega
    have hall : ∀ x ∈ q ++ new, x ∈ s.unsent ++ s.unacked ∨ ∃ data, x.Good cfg sums data := by
      intro x hx
      rcases List.mem_append.1 hx with hx | hx
      · rcases hw.tail with ⟨-, -, rfl, -⟩ | ⟨s₁, last, y, mid, last', hplan, hmid, hcommit, rfl⟩
        · cases hx
        rcases List.mem_append.1 hx with hx | hx
        · exact .inl (List.mem_append_left _ (List.dropLast_subset _ hx))
        · obtain rfl := List.mem_singleton.1 hx
          obtain ⟨data, hlast⟩ := hg.segs last (List.mem_append_left _ (List.mem_of_getLast? hplan.getLast))
          exact .inr ⟨_, hplan.good hsums hmid hcommit hlast hbalanced⟩
      · obtain ⟨i, -, hi⟩ := hnew.of_mem hx
        exact .inr ⟨_, hi.good (by have := hpiece i; omega) hsums⟩
    refine ⟨fun x hx ↦ ?_, ?_, ?_⟩
    · rcases List.mem_append.1 hx with hx | hx
      · obtain ⟨seg, hseg, hflag⟩ := hw.unsent.of_mem hx
        obtain ⟨data, hgood⟩ : ∃ data, seg.Good cfg sums data := by
          rcases hall seg hseg with hold | hnew
          · exact hg.segs seg hold
          · exact hnew
        rcases hflag with rfl | rfl
        · exact ⟨data, hgood⟩
        · exact ⟨data, hgood.setFlag _⟩
      · exact hg.segs x (List.mem_append_right _ (hw.unacked ▸ hx))
    · obtain ⟨-, -, -, -, -, -, -, hwnd⟩ := hw.fixed
      exact hwnd ▸ hg.sndWndMax
    · rw [hw.sndBuf]
      omega
  · exact hg.keep (fun x hx ↦ .inl hx) rfl le_rfl
  · exact hg

/-- **A segment with a flag** and no data. -/
theorem tcpCreateSegment_good {p : TxPbuf} {flags : BitVec 6} {seqno : SeqNum} {optsMss optsTs : Bool}
    (hp : pbufAlloc mem m .transport (optLength optsMss optsTs) .ram = (some p, m'))
    {m₁ m₂ : Pools} (h : tcpCreateSegment mem m₁ s [p] flags seqno optsMss optsTs = some (some seg, m₂)) :
    seg.Good cfg sums [] := by
  have hopt : optLength optsMss optsTs ≤ 16 := by
    rw [optLength]
    split_ifs <;> decide
  have hsize : sizeofStructPbuf = 24 := rfl
  have hoffset : PbufLayer.transport.offset = 54 := rfl
  have htcp : tcpHlen = 20 := rfl
  obtain ⟨htype, hbytes, hroom, htot, hpayload⟩ := pbufAlloc_some hp
  obtain ⟨hlow, hhigh⟩ := hpayload rfl
  obtain ⟨a, p', hp', rfl⟩ := tcpCreateSegment_some h
  obtain ⟨hall, htotals, b, bs, heq, hfront, rfl⟩ := pbufHeader_spec hp'
  obtain ⟨rfl, rfl⟩ := List.cons.inj heq
  have hone : txBytes [p] = List.replicate (optLength optsMss optsTs) 0 := (List.append_nil _).trans hbytes
  have hlen : p.bytes.length = optLength optsMss optsTs := by rw [hbytes, List.length_replicate]
  have hlens : (List.replicate tcpHlen (0 : Byte) ++ p.bytes).length = tcpHlen + optLength optsMss optsTs := by
    rw [List.length_append, List.length_replicate, hlen]
  refine ⟨⟨[], List.replicate tcpHlen 0 ++ p.bytes, ⟨?_, hlens, ⟨_, [], rfl, ⟨htype, ?_, ?_⟩, ?_, rfl⟩, ?_,
    htotals ⟨?_, trivial⟩, fun q hq ↦ ?_, rfl⟩⟩, Nat.two_pow_pos 16, fun _ _ ↦ rfl, fun _ ↦ rfl⟩
  · simp
  · dsimp only
    omega
  · dsimp only
    omega
  · dsimp only
    rw [List.length_nil, Nat.zero_add]
  · dsimp only
    rw [show txTotLen [p] = p.totLen from rfl, htot, toU16, toU16, List.length_nil]
    omega
  · rw [hone, List.length_replicate, toU16, Nat.mod_eq_of_lt (by omega), htot]
  · obtain rfl := List.mem_singleton.1 hq
    rw [TxPbuf.Small, hlens]
    dsimp only
    omega

theorem tcpEnqueueFlags_good {flags : BitVec 6} {r : Err} (h : tcpEnqueueFlags cfg mem s flags m = some (r, s', m'))
    (hg : s.Good cfg sums) : s'.Good cfg sums := by
  have hsame : TxPcb.Good cfg sums { s with nagleMemErr := true } := hg.keep (fun x hx ↦ .inl hx) rfl le_rfl
  simp only [tcpEnqueueFlags] at h
  split at h
  · cases h
  split at h
  · cases h
    exact hsame
  split at h
  · cases h
    exact hg
  split at h
  · cases h
    exact hsame
  next p m₁ hp =>
  obtain ⟨⟨r', m₂⟩, hseg, h⟩ := Option.bind_eq_some_iff.1 h
  rcases r' with - | seg <;> dsimp only at h
  · cases h
    exact hsame
  split at h
  · cases h
    refine hg.keep (fun x hx ↦ ?_) rfl (Nat.sub_le _ _)
    rcases List.mem_append.1 hx with hx | hx
    · rcases List.mem_append.1 hx with hx | hx
      · exact .inl (List.mem_append_left _ hx)
      · obtain rfl := List.mem_singleton.1 hx
        exact .inr ⟨[], tcpCreateSegment_good hp hseg⟩
    · exact .inl (List.mem_append_right _ hx)
  · cases h

theorem tcpSendFin_good {r : Err} (h : tcpSendFin cfg mem s m = some (r, s', m')) (hg : s.Good cfg sums) :
    s'.Good cfg sums := by
  rw [tcpSendFin] at h
  split at h
  · split at h
    · cases h
      refine hg.keep (fun x hx ↦ ?_) rfl le_rfl
      rcases List.mem_append.1 hx with hx | hx
      · rcases mem_mapLast hx with hx | ⟨last, hlast, rfl⟩
        · exact .inl (List.mem_append_left _ hx)
        · obtain ⟨data, hgood⟩ := hg.segs last (List.mem_append_left _ hlast)
          exact .inr ⟨data, hgood.setFlag _⟩
      · exact .inl (List.mem_append_right _ hx)
    · exact tcpEnqueueFlags_good h hg
  · exact tcpEnqueueFlags_good h hg

/-! ### Whole runs -/

variable {s s' s₀ : TxState} {l : TxLabel} {ls : List TxLabel}

/-- **One step** keeps all segments good, and what it sends verifies. -/
theorem txStep_good (h : txStep cfg mem l s = some s') (hg : s.pcb.Good cfg sums)
    (hsums : sums → cfg.checksumOnCopy = true) (hbalanced : sums → Balanced l s) :
    s'.pcb.Good cfg sums ∧ (sums → ∀ k ∈ s'.sent, k ∈ s.sent ∨ k.Verifies cfg.alg) := by
  rcases l with c | flags | - | o | - | - | - | - | - | e
  case write =>
    obtain ⟨⟨r, u, n⟩, hcall, rfl⟩ := Option.map_eq_some_iff.1 h
    exact ⟨tcpWrite_good hcall hg hsums hbalanced, fun _ k hk ↦ .inl hk⟩
  case enqueueFlags =>
    obtain ⟨⟨r, u, n⟩, hcall, rfl⟩ := Option.map_eq_some_iff.1 h
    exact ⟨tcpEnqueueFlags_good hcall hg, fun _ k hk ↦ .inl hk⟩
  case sendFin =>
    obtain ⟨⟨r, u, n⟩, hcall, rfl⟩ := Option.map_eq_some_iff.1 h
    exact ⟨tcpSendFin_good hcall hg, fun _ k hk ↦ .inl hk⟩
  case output =>
    obtain ⟨⟨u, n, k⟩, hcall, rfl⟩ := Option.map_eq_some_iff.1 h
    obtain ⟨hgood, hverifies⟩ := outputOne_spec hcall hg
    refine ⟨hgood, fun hs x hx ↦ ?_⟩
    rcases List.mem_append.1 hx with hx | hx
    · exact .inl hx
    · exact .inr (hverifies hs x (Option.mem_toList.1 hx))
  case rexmitRto =>
    cases h
    exact ⟨tcpRexmitRto_good hg, fun _ k hk ↦ .inl hk⟩
  case rexmit =>
    cases h
    exact ⟨tcpRexmit_good hg, fun _ k hk ↦ .inl hk⟩
  case ackUnacked =>
    obtain ⟨⟨u, n⟩, hcall, rfl⟩ := Option.map_eq_some_iff.1 h
    exact ⟨ackUnacked_good hcall hg, fun _ k hk ↦ .inl hk⟩
  case ackUnsent =>
    obtain ⟨⟨u, n⟩, hcall, rfl⟩ := Option.map_eq_some_iff.1 h
    exact ⟨ackUnsent_good hcall hg, fun _ k hk ↦ .inl hk⟩
  case purge =>
    obtain ⟨⟨u, n⟩, hcall, rfl⟩ := Option.map_eq_some_iff.1 h
    exact ⟨tcpPcbPurge_good hcall hg, fun _ k hk ↦ .inl hk⟩
  case other =>
    cases h
    exact ⟨⟨hg.segs, e.sndWndMax_lt, e.sndBuf_lt⟩, fun _ k hk ↦ .inl hk⟩

theorem TxState.Starts.good (h : s₀.Starts) : s₀.pcb.Good cfg sums := by
  refine ⟨fun seg hseg ↦ ?_, h.sndWndMax, h.sndBuf⟩
  rw [h.unsent, h.unacked] at hseg
  cases hseg

/-- A connection with an MSS of eight and nothing to send. -/
def emptyState : TxState :=
  ⟨{ eightPcb with sndLbb := 1000, sndQueuelen := 0, unsentOversize := 0, unsent := [] }, ⟨0, 0⟩, []⟩

theorem emptyState_starts : emptyState.Starts := ⟨rfl, rfl, by decide, by decide, rfl⟩

/-- A few bytes, which are copied. -/
def fewBytes (arg : List Byte) (h : arg.length < 2 ^ 16) : WriteCall := ⟨arg, h, 3000, true, false⟩

/-- Over Ethernet, with headers of 34 bytes in front. -/
def ethernetCall : OutCall := ⟨500, 1000, 536, 0, 0, some 0x0100000a, 0x0200000a, List.replicate 34 0x45⟩

/-- A build with `TCP_CHECKSUM_ON_COPY`. -/
def onCopy : TxConf := ⟨false, true, true, false, .two⟩

/-- Every attempt to allocate gets something. -/
def plenty (i : ℕ) : Option ℕ := some (1000 * (i + 1))

end Lwip.Tcp.Tx
