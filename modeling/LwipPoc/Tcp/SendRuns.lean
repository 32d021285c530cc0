import LwipPoc.Tcp.RcvWindow
import LwipPoc.Tcp.SendCalls

/-!
# The send queues in runs

What a step must keep to for the send queues to stay right (`StepKeeps`), and that they are right then in every run
(`run_sane`): a step in which a segment arrives, a tick of a timer, and a call of the application.

**The queues are in order** (`send_queues_in_order`): the segments on them follow each other from `lastack` to `snd_lbb`.
**The own `FIN`** (`own_fin_acknowledged`): an acknowledgement that takes the connection past its own `FIN` is one of the
`FIN`, and the `FIN` was sent, exactly if it does not come while the `FIN` waits on `unsent`.
-/

namespace Lwip.Tcp

namespace Pcb

variable {isn : SeqNum} {s s' t : Pcb} {aim : Aim}

/-! ### What a step must keep to -/

instance (s : SendSide) (ackno : SeqNum) : Decidable (s.HeadKept ackno) :=
  inferInstanceAs (Decidable (∀ seg ∈ s.unsent.head?, _ → ¬_))

instance (s : SendSide) (ackno : SeqNum) : Decidable (s.FinStays ackno) :=
  inferInstanceAs (Decidable (∀ _ ∈ _, _))

instance : Decidable s.WaitsBehind := inferInstanceAs (Decidable (∀ _ ∈ _, _))

instance (len : ℕ) : Decidable (s.ExtendsLast len) := inferInstanceAs (Decidable (_ ∨ _))

instance : (c : Call) → Decidable (CallKeeps aim s c)
  | .write arg _ _ _ => inferInstanceAs (Decidable (_ = some Err.ok → s.ExtendsLast arg.length))
  | .close _ _ => inferInstanceAs (Decidable (s.ClosesWithFin → s.ResetOnClose ∨ FinGoesLast aim s))
  | .shutdown _ _ _ _ => inferInstanceAs (Decidable (_ = true → s.ClosesWithFin → _ ∧ s.ResetOnClose ∨ FinGoesLast aim s))
  | .recved _ _ | .output _ | .nodelay _ | .abort _ => inferInstanceAs (Decidable True)

instance decCallsKeep (input : Bool) : (cs : List Call) → (s : Pcb) → Decidable (CallsKeep aim input cs s)
  | [], _ => inferInstanceAs (Decidable True)
  | c :: cs, s =>
    have := fun s' ↦ decCallsKeep input cs s'
    inferInstanceAs (Decidable (CallKeeps aim s c ∧ ∀ s' ∈ s.appCall input c, CallsKeep aim input cs s'))

/-- An acknowledgement takes nothing off `unsent` that was not sent: for the order no segment, and for the `FIN` none
that has it. -/
def AckKeeps (aim : Aim) (s : Pcb) (g : InSeg) : Prop :=
  g.ack = true → (aim = .order → s.sendSide.HeadKept g.ackno) ∧
    (aim = .fin → s.state.finQueued = true → s.sendSide.FinStays g.ackno)

instance (g : InSeg) : Decidable (AckKeeps aim s g) := inferInstanceAs (Decidable (_ → _ ∧ _))

/-- What the calls from the `accept` callback and the rest of the segment must keep to. A connection that is closed there
does not go back to `CLOSE_WAIT`. -/
def AcceptKeeps (aim : Aim) (s : Pcb) (g : InSeg) (env : InEnv) : Prop :=
  CallsKeep aim true env.calls s ∧ ∀ s' ∈ s.appCalls true env.calls, env.result = .ok →
    AckKeeps aim s' g ∧ (s'.state.finQueued = true → g.fin = false)

instance (g : InSeg) (env : InEnv) : Decidable (AcceptKeeps aim s g env) := inferInstanceAs (Decidable (_ ∧ _))

/-- What a segment that arrives must keep to, with the calls from the callback. -/
def InputKeeps (aim : Aim) (s : Pcb) (g : InSeg) (env : InEnv) : Prop :=
  (s.state = .synSent → CallsKeep aim true env.calls ((s.tcpParseopt g).synAcked g env.mtu s.unacked.tail)) ∧
    (s.state = .synRcvd → AcceptKeeps aim { s.tcpParseopt g with state := .established } g env) ∧
    (s.state ≠ .synSent → s.state ≠ .synRcvd → AckKeeps aim s g)

instance (g : InSeg) (env : InEnv) : Decidable (InputKeeps aim s g env) := inferInstanceAs (Decidable (_ ∧ _ ∧ _))

/-- The retransmission timer is due in the next tick. -/
def RexmitDue (s : Pcb) : Prop :=
  s.givesUp = false ∧ s.persistBackoff = 0 ∧ s.rto ≤ if 0 ≤ s.rtime then toS16 (s.rtime + 1) else s.rtime

instance : Decidable s.RexmitDue := inferInstanceAs (Decidable (_ ∧ _ ∧ _))

/-! ### Segments that arrive -/

theorem Idle.of_synchronized (hsent : s'.state ≠ .synSent) (hrcvd : s'.state ≠ .synRcvd) : Idle s s' :=
  ⟨fun hs ↦ absurd hs hsent, fun hs ↦ absurd hs hrcvd⟩

/-- A step that keeps the invariant. -/
structure Advances (isn : SeqNum) (aim : Aim) (s s' : Pcb) : Prop where
  evolves : Evolves isn aim s s'
  idle : Idle s s'

theorem Advances.refl : Advances isn aim s s := ⟨.refl, .refl⟩

theorem Advances.trans (h : Advances isn aim s t) (h' : Advances isn aim t s') : Advances isn aim s s' :=
  ⟨h.evolves.trans h'.evolves, h.idle.trans h'.idle⟩

theorem Sane.advance (h : Sane isn aim s) (h' : Advances isn aim s s') : Sane isn aim s' := h.step h'.evolves h'.idle

/-- A step behind which the send queues are not looked at any more. -/
theorem Advances.gone (h : s'.state = .closed ∨ s'.state = .timeWait) : Advances isn aim s s' := by
  rcases h with h | h
  · exact ⟨.gone (h ▸ rfl), .gone .closed h (by decide) (by decide)⟩
  · exact ⟨.gone (h ▸ rfl), .gone .timeWait h (by decide) (by decide)⟩

/-- A step that does not touch what the invariant is about. -/
theorem Advances.of_same (hside : s'.sendSide = s.sendSide) (hstate : s'.state = s.state) (hsent : s.sent ⊆ s'.sent)
    (hmax : s'.sndWndMax = s.sndWndMax) (hq : s'.ooseq = s.ooseq ∨ s'.ooseq = []) : Advances isn aim s s' := by
  refine ⟨(Carries.of_same hside hsent).evolves hstate, fun hs ↦ ?_, fun hs ↦ ⟨hstate ▸ hs, fun hnil ↦ ?_⟩⟩
  · exact ⟨hstate ▸ hs, congrArg SendSide.written hside, hmax, congrArg SendSide.lastack hside⟩
  · exact hq.elim (fun h ↦ h.trans hnil) id

/-- Another state, on the same side of the own `FIN`. -/
theorem Advances.turn (state : TcpState) (hto : s'.state = state)
    (hside : s'.sendSide = { s.sendSide with finQueued := state.finQueued }) (hsent : s'.sent = s.sent)
    (hfin : s.state.finQueued = state.finQueued) (hwithin : state.within aim = true → s.state.within aim = true)
    (hsync : state ≠ .synSent ∧ state ≠ .synRcvd) : Advances isn aim s s' := by
  have hsame : s'.sendSide = s.sendSide := by rw [hside, ← hfin]; rfl
  exact ⟨fun hs ↦ ⟨hwithin (hto ▸ hs), .of_same hsame (hsent ▸ List.Subset.refl _)⟩,
    .of_synchronized (hto ▸ hsync.1) (hto ▸ hsync.2)⟩

theorem tcpOutput_advances (input alloc : Bool) : Advances isn aim s (s.tcpOutput input alloc) :=
  ⟨tcpOutput_evolves input alloc, tcpOutput_idle input alloc⟩

theorem tcpRexmit_advances : Advances isn aim s s.tcpRexmit := by
  have hreceiver := tcpRexmit_receiver (s := s)
  refine ⟨tcpRexmit_carries.evolves hreceiver.state, fun hs ↦ ⟨hreceiver.state ▸ hs, ?_⟩, fun hs ↦ ⟨hreceiver.state ▸ hs,
    fun hq ↦ hreceiver.ooseq.trans hq⟩⟩
  rw [tcpRexmit]
  split <;> exact ⟨rfl, rfl, rfl⟩

theorem tcpParseopt_advances (g : InSeg) : Advances isn aim s (s.tcpParseopt g) := by
  rw [tcpParseopt]
  split
  · exact .refl
  · exact .of_same rfl rfl (List.Subset.refl _) rfl (.inl rfl)

/-- Without data a tile is the `SYN`. -/
theorem syn_of_unwritten {L : Layout} {x : Tile} (hq : Queues isn s.sendSide L) (hw : s.written = [])
    (hopen : s.state.finQueued = false) (hx : x ∈ L.unacked ++ L.again ++ L.fresh) : x.pos = 0 ∧ x.stop = 1 := by
  have hdata := data_eq_nil hq hx hw
  have hfin : x.seg.fin = false := by
    by_contra hf
    exact Bool.noConfusion (((hq.fin x hx).1 (Bool.eq_true_of_not_eq_false hf)).1.symm.trans hopen)
  have hsyn : x.seg.syn = true := by
    by_contra hs
    have hpos := (hq.ok x hx).tcpLen_pos
    simp [TcpSeg.tcpLen, TcpSeg.len, hdata, hfin, hs, toU16] at hpos
  have hpos := ((hq.ok x hx).syn hsyn).2
  refine ⟨hpos, ?_⟩
  simp [Tile.stop, TcpSeg.tcpLen, TcpSeg.len, hdata, hsyn, hpos, toU16]

/-- **The `SYN` is acknowledged**, and it was the only tile. -/
theorem Sane.synAcked {g : InSeg} {mtu : ℕ} {seg : TcpSeg} {rest : List TcpSeg} (h : Sane isn aim s)
    (hstate : s.state = .synSent) (hunacked : s.unacked = seg :: rest) (hack : g.ackno = seg.seqno + 1) :
    Sane isn aim (s.synAcked g mtu rest) := by
  obtain ⟨hw, -, hlast⟩ := h.opening.synSent hstate
  obtain ⟨L, hL, -⟩ := h.layout (by rw [hstate]; rfl)
  have hq := hL.queues
  have hopen : s.state.finQueued = false := by rw [hstate]; rfl
  have hone {x : Tile} (hx : x ∈ L.unacked ++ L.again ++ L.fresh) : x.pos = 0 ∧ x.stop = 1 :=
    syn_of_unwritten hq hw hopen hx
  -- the first one on `unacked`, and no other
  obtain ⟨x, hU, hR, rfl⟩ : ∃ x, L.unacked = [x] ∧ L.again = [] ∧ x.seg = seg := by
    have hmap : L.unacked.map Tile.seg = seg :: rest := hq.unacked.symm.trans hunacked
    obtain ⟨x, us, hU, hx, -⟩ := List.map_eq_cons_iff.1 hmap
    have hsep := hq.separate
    rw [hU, List.cons_append] at hsep
    have hnil : us ++ L.again = [] := List.eq_nil_iff_forall_not_mem.2 fun y hy ↦ by
      have hxy := List.rel_of_pairwise_cons hsep hy
      have hx := hone (x := x) (by simp [hU])
      have hy := hone (x := y) (List.mem_append_left _ (by rw [hU]; exact List.mem_cons_of_mem x hy))
      rw [Separate] at hxy
      omega
    obtain ⟨rfl, hR⟩ := List.append_eq_nil_iff.1 hnil
    exact ⟨x, hU, hR, hx⟩
  have hx := hone (x := x) (by simp [hU])
  have hfront := hq.sent x (by simp [hU])
  have hF : L.fresh = [] := List.eq_nil_iff_forall_not_mem.2 fun y hy ↦ by
    have hy' := hone (x := y) (by simp [hy])
    have hb := (hq.fresh_bounds hy).1
    omega
  have hstop : s.sendSide.stop = 1 := by
    show s.written.length + 1 + (if s.state.finQueued then 1 else 0) = 1
    rw [hw, hopen]
    rfl
  have hnxt : L.nxt = 1 := by
    have hle := hq.nxt_le
    omega
  have hacked : L.acked = 0 := by
    have hle := hq.current x (by simp [hU])
    have hseq : seqAt isn L.acked = seqAt isn 0 := by
      rw [← hq.lastack, show s.sendSide.lastack = isn from hlast, seqAt]
      bv_omega
    exact (seqAt_inj (by omega) (by omega)).1 hseq
  have hrest : rest = [] := by
    have hmap : L.unacked.map Tile.seg = x.seg :: rest := hq.unacked.symm.trans hunacked
    rw [hU] at hmap
    exact (List.cons.inj hmap).2.symm
  have hunsent : s.unsent = [] := by
    have hmap : s.unsent = (L.again ++ L.fresh).map Tile.seg := hq.unsent
    rw [hmap, hR, hF]
    rfl
  have hroom : s.sndBuf + 1 ≤ tcpSndBuf := by
    have hr := hq.room
    rw [hstop, hacked, SendSide.fins, show s.sendSide.finQueued = false from hopen] at hr
    exact hr
  have hack' : g.ackno = seqAt isn 1 := by
    rw [hack, (hq.ok x (by simp [hU])).seqno, hx.1, seqAt, seqAt]
    bv_omega
  have hlbb : s.sndLbb = seqAt isn 1 := by
    rw [← hstop]
    exact hq.sndLbb hopen
  have hside : (s.synAcked g mtu rest).sendSide =
      ⟨[], [], seqAt isn 1, seqAt isn 1, seqAt isn 1, s.sndBuf + 1, g.wnd, s.unsentOversize, [], false⟩ := by
    have hbuf : toU16 (s.sndBuf + 1) = s.sndBuf + 1 := Nat.mod_eq_of_lt (by rw [tcpSndBuf, tcpMss] at hroom; omega)
    rw [sendSide, Pcb.synAcked]
    simp only [hrest, hunsent, hack', hlbb, hbuf, hw, show s.sndNxt = seqAt isn 1 from hnxt ▸ hq.sndNxt, TcpState.finQueued]
  refine ⟨⟨fun hs ↦ TcpState.noConfusion hs, fun hs ↦ TcpState.noConfusion hs⟩,
    fun _ ↦ ⟨⟨[], [], [], 1, 1, 1⟩, ⟨?_, fun hfq ↦ Bool.noConfusion hfq⟩, fun _ ↦ ?_, fun _ hfq ↦ Bool.noConfusion hfq⟩⟩
  · rw [hside]
    exact {
      unacked := rfl
      unsent := rfl
      ok := List.forall_mem_nil _
      fin := List.forall_mem_nil _
      lastack := rfl
      sndNxt := rfl
      sndLbb := fun _ ↦ rfl
      acked_le := Nat.le_refl 1
      nxt_le := Nat.le_refl 1
      room := hroom
      separate := List.Pairwise.nil
      sorted := List.Pairwise.nil
      sent := List.forall_mem_nil _
      current := List.forall_mem_nil _
      pieces := rfl
      unfinished := List.forall_mem_nil _
      oversize := fun _ ↦ hq.oversize hw
      sndWnd := g.wnd_lt }
  · rw [hside]
    exact ⟨⟨1, [], List.Perm.nil, Nat.le_refl 1, rfl⟩, List.Pairwise.nil, Nat.le_refl 1, List.forall_mem_nil _,
      List.forall_mem_nil _, rfl⟩

theorem connected_sane {g : InSeg} {env : InEnv} (hc : s.connected g env = some s') (hstate : s.state = .synSent)
    (h : Sane isn aim s) (hkeeps : CallsKeep aim true env.calls (s.synAcked g env.mtu s.unacked.tail)) :
    Sane isn aim s' := by
  rw [connected] at hc
  rcases hunacked : s.unacked with - | ⟨seg, rest⟩ <;> rw [hunacked] at hc hkeeps
  · cases hc
  dsimp only [List.tail_cons] at hc hkeeps
  by_cases hack : g.ackno = seg.seqno + 1
  · rw [if_pos hack, Option.ite_none_right_eq_some] at hc
    obtain ⟨u, hu, rfl⟩ := Option.map_eq_some_iff.1 hc.2
    refine ((h.synAcked hstate hunacked hack).appCalls hu hkeeps).advance ?_
    split_ifs
    · exact .refl
    · exact .of_same rfl rfl (List.Subset.refl _) rfl (.inl rfl)
  · rw [if_neg hack] at hc
    obtain rfl := Option.some.inj hc
    exact h

theorem tcpReceive_advances {g : InSeg} {alloc ack : Bool} {r : Pcb × Received} (h : s.tcpReceive g alloc ack = some r)
    (hkeeps : AckKeeps aim s g) : Advances isn aim s r.1 := by
  have hc : CarriesFor isn aim s r.1 :=
    tcpReceive_carries h (fun hack ho ↦ (hkeeps hack).1 ho) fun hack hf ↦ (hkeeps hack).2 hf
  have hsync : s.state.synchronized = true := by
    rw [tcpReceive] at h
    by_contra hs
    rw [if_neg hs] at h
    cases h
  rcases tcpReceive_state h with hst | ⟨hst, hst'⟩
  · refine ⟨hc.evolves hst, .of_synchronized ?_ ?_⟩ <;> rw [hst] <;> rintro hs <;> rw [hs] at hsync <;> cases hsync
  · exact ⟨fun _ ↦ ⟨by rw [hst]; rfl, hc⟩, .gone .closeWait hst' (by decide) (by decide)⟩

theorem trimFront_fin {rcvNxt : SeqNum} {i j : OoSeg} {tcplen : ℕ} (h : trimFront rcvNxt i tcplen = some j) :
    j.fin = i.fin := by
  rw [trimFront] at h
  dsimp only at h
  split_ifs at h <;> obtain rfl := Option.some.inj h <;> rfl

theorem trimToWindow_fin {rcvNxt : SeqNum} {rcvWnd : ℕ} {i j : OoSeg} (h : trimToWindow rcvNxt rcvWnd i = some j)
    (hfin : j.fin = true) : i.fin = true := by
  rw [trimToWindow] at h
  dsimp only at h
  split_ifs at h <;> obtain rfl := Option.some.inj h
  · cases hfin
  · cases hfin
  · exact hfin

theorem acceptSeg_ooseq {seqno : SeqNum} {tcplen : ℕ} (h : s.acceptSeg seqno tcplen = some s') : s'.ooseq = s.ooseq := by
  rw [acceptSeg] at h
  split_ifs at h
  obtain ⟨r, hr, rfl⟩ := Option.map_eq_some_iff.1 h
  rw [tcpUpdateRcvAnnWnd] at hr
  dsimp only at hr
  split_ifs at hr <;> obtain rfl := Option.some.inj hr <;> rfl

/-- Without segments out of sequence, a `FIN` is one of the segment that arrives. -/
theorem fin_of_gotFin {g : InSeg} {alloc ack : Bool} {r : Pcb × Received} (h : s.tcpReceive g alloc ack = some r)
    (hq : s.ooseq = []) (hgot : r.2.gotFin = true) : g.fin = true := by
  obtain ⟨u, hu, hr⟩ := tcpReceive_cases h
  have huq : u.ooseq = [] := by
    rcases hu with ⟨-, hu⟩ | ⟨-, rfl⟩
    · exact (receiveAck_receiver hu).ooseq.trans hq
    · exact hq
  obtain ⟨v, hv, ⟨i, hi, -, hr⟩ | ⟨q, rfl⟩ | rfl | rfl⟩ := receiveData_cases hr
  · have hifin : i.fin = g.fin := trimFront_fin hi
    have hvq : v.ooseq = [] := by rcases hv with rfl | rfl <;> exact huq
    obtain ⟨j, hj, hr⟩ := Option.bind_eq_some_iff.1 hr
    obtain ⟨k, hk, hr⟩ := Option.bind_eq_some_iff.1 hr
    obtain ⟨w, hw, hr⟩ := Option.bind_eq_some_iff.1 hr
    obtain ⟨x, hx, rfl⟩ := Option.map_eq_some_iff.1 hr
    -- nothing is on the queue that may be passed on
    have hk' : k = (j, []) := by
      rw [trimToOoseq, hvq] at hk
      split_ifs at hk <;> exact (Option.some.inj hk).symm
    have hwq : w.ooseq = [] := by rw [acceptSeg_ooseq hw, hk']
    rw [hwq] at hx
    obtain rfl := Option.some.inj hx
    rw [hk'] at hgot
    exact hifin ▸ trimToWindow_fin hj hgot
  · cases hgot
  · cases hgot
  · cases hgot

theorem appCalls_ooseq {input : Bool} {cs : List Call} (h : s.appCalls input cs = some s') (hq : s.ooseq = []) :
    s'.ooseq = [] := by
  induction cs generalizing s with
  | nil =>
    obtain rfl := Option.some.inj h
    exact hq
  | cons c cs ih =>
    obtain ⟨u, hu, h⟩ := Option.bind_eq_some_iff.1 h
    exact ih h ((appCall_sheds hu).ooseq.elim (fun h ↦ h.trans hq) id)

theorem accepted_sane {g : InSeg} {env : InEnv} {r : Pcb × InResult} (hr : s.accepted g env = some r)
    (hstate : s.state = .synRcvd) (h : Sane isn aim s)
    (hkeeps : AcceptKeeps aim { s with state := .established } g env) : Sane isn aim r.1 := by
  obtain ⟨u, hu, hr⟩ := Option.bind_eq_some_iff.1 hr
  have hopen : Advances isn aim s { s with state := .established } :=
    .turn .established rfl rfl rfl (by rw [hstate]; rfl) (fun _ ↦ by rw [hstate]; rfl) (by decide)
  have hsane : Sane isn aim u := (h.advance hopen).appCalls hu hkeeps.1
  have huq : u.ooseq = [] := appCalls_ooseq hu (h.opening.synRcvd hstate)
  by_cases hresult : env.result ≠ .ok
  · rw [if_pos hresult] at hr
    obtain rfl := Option.some.inj hr
    dsimp only
    split_ifs
    · exact hsane
    · exact hsane.advance (.gone (.inl rfl))
  rw [if_neg hresult] at hr
  obtain ⟨v, hv, rfl⟩ := Option.map_eq_some_iff.1 hr
  obtain ⟨hack, hfin⟩ := hkeeps.2 u hu (not_not.1 hresult)
  refine (hsane.advance (tcpReceive_advances hv hack)).advance ?_
  dsimp only
  by_cases hgot : v.2.gotFin = true
  · rw [if_pos hgot]
    -- the callback has not closed the connection
    have hbefore := beforeCloseWait_of_gotFin hv hgot
    have hopen : u.state.finQueued = false := by
      by_contra hq
      exact Bool.noConfusion ((hfin (Bool.eq_true_of_not_eq_false hq)).symm.trans (fin_of_gotFin hv huq hgot))
    have hst : v.1.state = .established ∨ v.1.state = .closeWait := by
      rcases tcpReceive_state hv with hst | ⟨-, hst⟩
      · rw [hst]
        revert hbefore hopen
        cases u.state <;> simp [TcpState.beforeCloseWait, TcpState.synchronized, TcpState.finQueued]
      · exact .inr hst
    refine .turn .closeWait rfl rfl rfl ?_ (fun _ ↦ ?_) (by decide) <;> rcases hst with hst | hst <;> rw [hst] <;> rfl
  · rw [if_neg hgot]
    exact .of_same rfl rfl (List.Subset.refl _) rfl (.inl rfl)

/-- **The switch over the states.** -/
theorem processState_sane {g : InSeg} {env : InEnv} {r : Pcb × InResult} (hr : s.processState g env = some r)
    (h : Sane isn aim s)
    (hsent : s.state = .synSent → CallsKeep aim true env.calls (s.synAcked g env.mtu s.unacked.tail))
    (hrcvd : s.state = .synRcvd → AcceptKeeps aim { s with state := .established } g env)
    (hack : s.state ≠ .synSent → s.state ≠ .synRcvd → AckKeeps aim s g) : Sane isn aim r.1 := by
  rw [processState] at hr
  rcases hs : s.state <;> rw [hs] at hr
  case closed | listen | timeWait =>
    obtain rfl := Option.some.inj hr
    exact h
  case synSent =>
    dsimp only at hr
    split_ifs at hr
    · obtain ⟨v, hv, rfl⟩ := Option.map_eq_some_iff.1 hr
      exact connected_sane hv hs h (hsent hs)
    · obtain rfl := Option.some.inj hr
      exact h
  case synRcvd =>
    dsimp only at hr
    split_ifs at hr
    · exact accepted_sane hr hs h (hrcvd hs)
    · obtain rfl := Option.some.inj hr
      exact h
    · obtain rfl := Option.some.inj hr
      exact h.advance tcpRexmit_advances
    · obtain rfl := Option.some.inj hr
      exact h
  -- `tcp_receive` first, and then another state
  all_goals
    obtain ⟨v, hv, rfl⟩ := Option.map_eq_some_iff.1 hr
    have hkeeps : AckKeeps aim s g := hack (by rw [hs]; exact TcpState.noConfusion) (by rw [hs]; exact TcpState.noConfusion)
    refine (h.advance (tcpReceive_advances hv hkeeps)).advance ?_
    have hst := tcpReceive_state hv
    rw [hs] at hst
    dsimp only
  case established | closeWait =>
    by_cases hgot : v.2.gotFin = true
    · rw [if_pos hgot]
      refine .turn .closeWait rfl rfl rfl ?_ (fun _ ↦ ?_) (by decide) <;> rcases hst with hst | ⟨-, hst⟩ <;> rw [hst] <;> rfl
    · rw [if_neg hgot]
      exact .refl
  all_goals replace hst := hst.resolve_right fun h ↦ TcpState.noConfusion h.1
  case finWait1 =>
    split_ifs
    · exact .gone (.inr rfl)
    · exact .turn .closing rfl rfl rfl (by rw [hst]; rfl) (by rw [hst]; exact id) (by decide)
    · exact .turn .finWait2 rfl rfl rfl (by rw [hst]; rfl) (by rw [hst]; exact id) (by decide)
    · exact .refl
  case finWait2 | closing =>
    split_ifs
    · exact .gone (.inr rfl)
    · exact .refl
  case lastAck => exact .refl

theorem tcpProcess_sane {g : InSeg} {env : InEnv} {r : Pcb × InResult} (hr : s.tcpProcess g env = some r)
    (h : Sane isn aim s) (hkeeps : InputKeeps aim s g env) : Sane isn aim r.1 := by
  rw [tcpProcess] at hr
  split at hr
  · obtain rfl := Option.some.inj hr
    exact iteInduction (motive := fun v : Pcb × InResult ↦ Sane isn aim v.1)
      (fun _ ↦ h.advance (.of_same rfl rfl (List.Subset.refl _) rfl (.inl rfl))) fun _ ↦ h
  split at hr
  · obtain rfl := Option.some.inj hr
    exact h.advance (.of_same rfl rfl (List.Subset.refl _) rfl (.inl rfl))
  · have hopt : (s.tcpParseopt g).sendSide = s.sendSide ∧ (s.tcpParseopt g).state = s.state := by
      rw [tcpParseopt]
      split <;> exact ⟨rfl, rfl⟩
    have hunacked : (s.tcpParseopt g).unacked = s.unacked := congrArg SendSide.unacked hopt.1
    refine processState_sane hr (h.advance (tcpParseopt_advances g)) (fun hs ↦ ?_) (fun hs ↦ ?_) fun hsent hrcvd ↦ ?_
    · rw [hunacked]
      exact hkeeps.1 (hopt.2 ▸ hs)
    · exact hkeeps.2.1 (hopt.2 ▸ hs)
    · rw [AckKeeps, hopt.1, hopt.2]
      exact hkeeps.2.2 (hopt.2 ▸ hsent) (hopt.2 ▸ hrcvd)

/-! ### Past the own `FIN` -/

/-- A function that sends nothing, and moves neither the bytes of the application nor `snd_nxt`. -/
structure SendsNothing (s s' : Pcb) : Prop where
  sndNxt : s'.sndNxt = s.sndNxt
  written : s'.written = s.written
  sent : s'.sent = s.sent

theorem MovesTo.sendsNothing {σ : SendSide} (h : MovesTo s s' σ) (hnxt : σ.sndNxt = s.sndNxt)
    (hwritten : σ.written = s.written) : SendsNothing s s' :=
  ⟨(congrArg SendSide.sndNxt h.sendSide).trans hnxt, (congrArg SendSide.written h.sendSide).trans hwritten, h.sent⟩

theorem SendsNothing.trans (h : SendsNothing s t) (h' : SendsNothing t s') : SendsNothing s s' :=
  ⟨h'.sndNxt.trans h.sndNxt, h'.written.trans h.written, h'.sent.trans h.sent⟩

/-- An acknowledgement sends nothing. -/
theorem receiveAck_sendsNothing {g : InSeg} (h : s.receiveAck g = some s') : SendsNothing s s' := by
  obtain ⟨wnd, -, hwnd⟩ := updateWindow_spec (s := s) g
  rw [receiveAck] at h
  obtain ⟨v, hv, h⟩ := Option.bind_eq_some_iff.1 h
  obtain ⟨w, hw, rfl⟩ := Option.map_eq_some_iff.1 h
  obtain ⟨os, -, hunsent⟩ := ackUnsent_spec rfl hw
  have hest : SendsNothing v (w.estimateRtt g.ackno) :=
    (hunsent.sendsNothing rfl rfl).trans ((estimateRtt_quiet g.ackno).sendsNothing rfl rfl)
  refine (hwnd.sendsNothing rfl rfl).trans (SendsNothing.trans ?_ hest)
  split_ifs at hv
  · obtain rfl := Option.some.inj hv
    obtain ⟨x, hx, hdup⟩ := duplicateAck_cases (s.updateWindow g) g (BitVec.ofNat 32 s.sndWnd + s.sndWl2)
    refine (hx.sendsNothing rfl rfl).trans ?_
    rcases hdup with hdup | hdup <;> rw [hdup]
    · exact ⟨rfl, rfl, rfl⟩
    · rcases tcpRexmitFast_cases x with hquiet | ⟨seg, rest, os, -, hmove⟩
      · exact hquiet.sendsNothing rfl rfl
      · exact hmove.sendsNothing rfl rfl
  · exact (newAck_spec hv).sendsNothing rfl rfl
  · obtain rfl := Option.some.inj hv
    exact ⟨rfl, rfl, rfl⟩

theorem tcpReceive_sndNxt {g : InSeg} {alloc ack : Bool} {r : Pcb × Received} (h : s.tcpReceive g alloc ack = some r) :
    r.1.sndNxt = s.sndNxt := by
  obtain ⟨u, hu, hr⟩ := tcpReceive_cases h
  have hdata : r.1.sndNxt = u.sndNxt := congrArg SendSide.sndNxt (receiveData_still hr).sendSide
  rw [hdata]
  rcases hu with ⟨-, hu⟩ | ⟨-, rfl⟩
  · exact (receiveAck_sendsNothing hu).sndNxt
  · rfl

/-- A segment takes the connection past its own `FIN`. -/
def Passes (s s' : Pcb) (closed : Bool) : Prop :=
  s.state = .finWait1 ∧ (s'.state = .finWait2 ∨ s'.state = .timeWait) ∨ s.state = .closing ∧ s'.state = .timeWait ∨
    closed = true

/-- The own `FIN` waits on `unsent`, and was not sent. -/
def FinWaits (s : Pcb) : Prop := ∃ seg ∈ s.unsent, seg.fin = true ∧ SeqLt s.sndNxt seg.endSeq

instance : Decidable s.FinWaits := inferInstanceAs (Decidable (∃ _ ∈ _, _))

theorem not_passes (hstate : s'.state = s.state ∨ s'.state = .closed) : ¬s.Passes s' false := by
  rintro (⟨hs, hs'⟩ | ⟨hs, hs'⟩ | hs)
  · rcases hstate with h | h <;> rw [h] at hs' <;> simp [hs] at hs'
  · rcases hstate with h | h <;> rw [h] at hs' <;> simp [hs] at hs'
  · cases hs

/-- Only an acknowledgement of all that was sent does. -/
theorem processState_passes {g : InSeg} {env : InEnv} {r : Pcb × InResult} (hr : s.processState g env = some r)
    (hpast : s.Passes r.1 r.2.closed) : s.state.finQueued = true ∧ g.ack = true ∧ g.ackno = s.sndNxt := by
  rw [processState] at hr
  rw [Passes] at hpast
  rcases hs : s.state <;> rw [hs] at hr hpast <;> dsimp only at hr
  case finWait1 | closing =>
    obtain ⟨v, hv, rfl⟩ := Option.map_eq_some_iff.1 hr
    have hst := (tcpReceive_state hv).resolve_right fun h ↦ TcpState.noConfusion (hs.symm.trans h.1)
    rw [hs] at hst
    rw [← tcpReceive_sndNxt hv]
    by_contra hno
    have hno' : ¬(g.ack = true ∧ g.ackno = v.1.sndNxt) := fun h ↦ hno ⟨rfl, h⟩
    rcases hgot : v.2.gotFin <;> simp [hno', hgot, hst] at hpast
  case lastAck =>
    obtain ⟨v, hv, rfl⟩ := Option.map_eq_some_iff.1 hr
    rw [← tcpReceive_sndNxt hv]
    simpa [TcpState.finQueued] using hpast
  all_goals
    -- the others report nothing
    exfalso
    simp only [reduceCtorEq, false_and, false_or] at hpast
  case closed | listen | timeWait =>
    obtain rfl := Option.some.inj hr
    cases hpast
  case established | closeWait | finWait2 =>
    obtain ⟨v, -, rfl⟩ := Option.map_eq_some_iff.1 hr
    cases hpast
  case synSent =>
    split_ifs at hr
    · obtain ⟨v, -, rfl⟩ := Option.map_eq_some_iff.1 hr
      cases hpast
    · obtain rfl := Option.some.inj hr
      cases hpast
  case synRcvd =>
    split_ifs at hr
    · obtain ⟨u, -, hr⟩ := Option.bind_eq_some_iff.1 hr
      by_cases hresult : env.result ≠ .ok
      · rw [if_pos hresult] at hr
        obtain rfl := Option.some.inj hr
        cases hpast
      · rw [if_neg hresult] at hr
        obtain ⟨v, -, rfl⟩ := Option.map_eq_some_iff.1 hr
        cases hpast
    all_goals
      obtain rfl := Option.some.inj hr
      cases hpast

theorem tcpProcess_passes {g : InSeg} {env : InEnv} {r : Pcb × InResult} (hr : s.tcpProcess g env = some r)
    (hpast : s.Passes r.1 r.2.closed) : s.state.finQueued = true ∧ g.ack = true ∧ g.ackno = s.sndNxt := by
  rw [tcpProcess] at hr
  split at hr
  · obtain rfl := Option.some.inj hr
    exact absurd hpast (iteInduction (motive := fun v : Pcb × InResult ↦ ¬s.Passes v.1 v.2.closed)
      (fun _ ↦ not_passes (.inl rfl)) fun _ ↦ not_passes (.inl rfl))
  split at hr
  · obtain rfl := Option.some.inj hr
    exact absurd hpast (not_passes (.inl rfl))
  · have hopt : (s.tcpParseopt g).state = s.state ∧ (s.tcpParseopt g).sndNxt = s.sndNxt := by
      rw [tcpParseopt]
      split <;> exact ⟨rfl, rfl⟩
    rw [Passes, ← hopt.1] at hpast
    rw [← hopt.1, ← hopt.2]
    exact processState_passes hr hpast

/-! ### Timers -/

theorem tcpZeroWindowProbe_advances (alloc : Bool) (junk : Byte) : Advances isn aim s (s.tcpZeroWindowProbe alloc junk) := by
  rw [tcpZeroWindowProbe]
  split
  · exact .refl
  · exact iteInduction (motive := fun v : Pcb ↦ Advances isn aim s v)
      (fun _ ↦ .of_same rfl rfl (List.subset_append_left _ _) rfl (.inl rfl)) fun _ ↦ .refl

theorem tcpRexmitRto_advances (alloc : Bool) (h : aim = .order → s.WaitsBehind) :
    Advances isn aim s (s.tcpRexmitRto alloc) := by
  have hstate : (s.tcpRexmitRto alloc).state = s.state := by
    rw [tcpRexmitRto]
    split_ifs
    · rfl
    · exact tcpOutput_state false alloc
  refine ⟨(tcpRexmitRto_carries alloc h).evolves hstate, ?_⟩
  rw [tcpRexmitRto]
  split_ifs
  · exact .refl
  · refine Idle.trans ?_ (tcpOutput_idle false alloc)
    exact .of_eq rfl rfl rfl rfl rfl

theorem slowtmrRexmit_advances (env : TickEnv) (hgives : s.givesUp = false) (h : aim = .order → s.RexmitDue → s.WaitsBehind) :
    Advances isn aim s (s.slowtmrRexmit env) := by
  rw [slowtmrRexmit]
  by_cases hpersist : 0 < s.persistBackoff
  · rw [if_pos hpersist]
    refine iteInduction (motive := fun v : Pcb ↦ Advances isn aim s v) (fun _ ↦ ?_) fun _ ↦ ?_
    · refine Advances.trans ?_ (tcpZeroWindowProbe_advances _ _)
      exact .of_same rfl rfl (List.Subset.refl _) rfl (.inl rfl)
    · exact .of_same rfl rfl (List.Subset.refl _) rfl (.inl rfl)
  rw [if_neg hpersist]
  generalize hv : (if 0 ≤ s.rtime then { s with rtime := toS16 (s.rtime + 1) } else s) = v
  have hsame : Advances isn aim s v := by
    rw [← hv]
    split_ifs
    · exact .of_same rfl rfl (List.Subset.refl _) rfl (.inl rfl)
    · exact .refl
  obtain ⟨hrto, hrtime, hbehind⟩ : v.rto = s.rto ∧ v.rtime = (if 0 ≤ s.rtime then toS16 (s.rtime + 1) else s.rtime) ∧
      (s.WaitsBehind → v.WaitsBehind) := by
    rw [← hv]
    split_ifs <;> exact ⟨rfl, rfl, id⟩
  refine hsame.trans (iteInduction (motive := fun w : Pcb ↦ Advances isn aim v w) (fun hdue ↦ ?_) fun _ ↦ .refl)
  refine Advances.trans ?_ (tcpRexmitRto_advances _ fun hord ↦ ?_)
  · exact .of_same rfl rfl (List.Subset.refl _) rfl (.inl rfl)
  · refine hbehind (h hord ⟨hgives, Nat.eq_zero_of_not_pos hpersist, ?_⟩)
    rw [← hrto, ← hrtime]
    exact hdue.2

theorem tcpSlowtmr_advances (env : TickEnv) (h : aim = .order → s.RexmitDue → s.WaitsBehind) :
    Advances isn aim s (s.tcpSlowtmr env) := by
  have hrexmit : Advances isn aim s (if s.givesUp then { s with ticks := s.ticks + 1 }
      else { s with ticks := s.ticks + 1 }.slowtmrRexmit env) := by
    have htick : Advances isn aim s { s with ticks := s.ticks + 1 } :=
      .of_same rfl rfl (List.Subset.refl _) rfl (.inl rfl)
    split_ifs with hgives
    · exact htick
    · exact htick.trans (slowtmrRexmit_advances env (Bool.eq_false_iff.2 hgives) h)
  have hgives : ({ s with ticks := s.ticks + 1 } : Pcb).givesUp = s.givesUp := rfl
  rw [tcpSlowtmr]
  dsimp only
  rw [hgives]
  refine hrexmit.trans ?_
  generalize (if s.givesUp then { s with ticks := s.ticks + 1 }
      else { s with ticks := s.ticks + 1 }.slowtmrRexmit env) = v
  have hkeepalive : Advances isn aim v (if env.keepalive then v.tcpKeepalive env.alloc else v) := by
    split_ifs
    · rw [tcpKeepalive]
      split_ifs
      · exact .of_same rfl rfl (List.subset_append_left _ _) rfl (.inl rfl)
      · exact .refl
    · exact .refl
  refine hkeepalive.trans ?_
  generalize (if env.keepalive then v.tcpKeepalive env.alloc else v) = w
  have hdrop : Advances isn aim w (if env.dropOoseq then { w with ooseq := [] } else w) := by
    split_ifs
    · exact .of_same rfl rfl (List.Subset.refl _) rfl (.inr rfl)
    · exact .refl
  refine hdrop.trans ?_
  generalize (if env.dropOoseq then { w with ooseq := [] } else w) = x
  split_ifs
  · exact .gone (.inl rfl)
  · exact .refl

end Pcb

namespace Conn

/-- **What a step must keep to.** -/
def StepKeeps (aim : Aim) : Label → Conn → Prop
  | .call call, c => c.pcb.CallKeeps aim call
  | .input g env, c => c.pcb.InputKeeps aim g env
  | .slowtmr _, c => aim = .order → c.pcb.RexmitDue → c.pcb.WaitsBehind
  | _, _ => True

instance (aim : Aim) : (l : Label) → (c : Conn) → Decidable (StepKeeps aim l c)
  | .call call, c => inferInstanceAs (Decidable (c.pcb.CallKeeps aim call))
  | .input g env, c => inferInstanceAs (Decidable (c.pcb.InputKeeps aim g env))
  | .slowtmr _, c => inferInstanceAs (Decidable (aim = .order → c.pcb.RexmitDue → c.pcb.WaitsBehind))
  | .recv _ _, _ | .inputDone _, _ | .refused _, _ | .fasttmr _, _ => inferInstanceAs (Decidable True)

open Pcb

variable {isn : SeqNum} {aim : Aim} {c c' : Conn} {l : Label}

theorem tcpTimewaitInput_state (s : Pcb) (g : InSeg) (ack : Bool) : (s.tcpTimewaitInput g ack).state = s.state := by
  rw [tcpTimewaitInput]
  split_ifs
  · rfl
  · rfl
  · exact tcpOutput_state false ack
  · rfl

theorem reportFin_advances {s : Pcb} (h : Advances isn aim s c.pcb) : Advances isn aim s c.reportFin.pcb := by
  refine h.trans ?_
  rw [reportFin]
  dsimp only
  split_ifs
  · exact .of_same rfl rfl (List.Subset.refl _) rfl (.inl rfl)
  · exact .refl

theorem refuse_advances (data : Option (List Byte × Bool)) : Advances isn aim c.pcb { c.pcb with refusedData := data } :=
  .of_same rfl rfl (List.Subset.refl _) rfl (.inl rfl)

/-- **A step keeps the invariant.** -/
theorem step_sane (h : Conn.step l c = some c') (hs : Sane isn aim c.pcb) (hkeeps : StepKeeps aim l c) :
    Sane isn aim c'.pcb := by
  rcases l with a | ⟨g, env⟩ | ⟨accept, ack⟩ | ack | accept | ack | env
  case call =>
    obtain ⟨s, hcall, rfl⟩ := Option.map_eq_some_iff.1 h
    exact hs.appCall hcall hkeeps
  case input =>
    rw [step] at h
    split_ifs at h with hbusy hwait
    · obtain rfl := Option.some.inj h
      exact hs.advance (.gone (.inr ((tcpTimewaitInput_state _ _ _).trans hwait)))
    rw [input] at h
    split_ifs at h
    · obtain rfl := Option.some.inj h
      exact hs
    · obtain ⟨r, hr, rfl⟩ := Option.map_eq_some_iff.1 h
      have hr' := tcpProcess_sane hr hs hkeeps
      split_ifs
      · exact hr'.advance (.gone (.inl rfl))
      · exact hr'.advance (.gone (.inl rfl))
      · exact hr'
      · exact hr'
  case recv =>
    rw [step, recv] at h
    split at h
    · cases h
    split_ifs at h <;> obtain rfl := Option.some.inj h
    · exact hs.advance (.gone (.inl rfl))
    · exact hs
    · exact hs.advance (refuse_advances _)
  case inputDone =>
    rw [step, inputDone] at h
    split at h
    · cases h
    split_ifs at h <;> obtain rfl := Option.some.inj h
    · refine hs.advance (Advances.trans ?_ (tcpOutput_advances false ack))
      split
      · exact refuse_advances _
      · exact reportFin_advances .refl
    · exact hs.advance (tcpOutput_advances false ack)
  case refused =>
    rw [step] at h
    split_ifs at h
    rw [refused] at h
    split at h
    · cases h
    split_ifs at h <;> obtain rfl := Option.some.inj h
    · exact hs.advance (reportFin_advances (refuse_advances none))
    · exact hs.advance (refuse_advances none)
    · exact hs
  case fasttmr =>
    rw [step] at h
    split_ifs at h <;> obtain rfl := Option.some.inj h
    · have hnow : Advances isn aim c.pcb { c.pcb with ackNow := true } :=
        .of_same rfl rfl (List.Subset.refl _) rfl (.inl rfl)
      refine (hs.advance (hnow.trans (tcpOutput_advances false ack))).advance ?_
      exact .of_same rfl rfl (List.Subset.refl _) rfl (.inl rfl)
    · exact hs
  case slowtmr =>
    rw [step] at h
    split_ifs at h
    obtain rfl := Option.some.inj h
    exact hs.advance (tcpSlowtmr_advances env hkeeps)

/-! ### Runs -/

/-- The tile of the `SYN`. -/
def synTile (isn : SeqNum) : Tile := ⟨0, isn, [], true, false, 1⟩

theorem synTile_ok (isn : SeqNum) : (synTile isn).Ok isn [] where
  seqno := by
    rw [synTile, seqAt]
    bv_omega
  bytes _ _ hb := by cases hb
  tcpLen_pos := Nat.one_pos
  length_lt := Nat.two_pow_pos 16
  syn _ := ⟨rfl, rfl⟩

/-- The `SYN` is on the queue; for a connection that is opened it counts as sent, since `snd_nxt` is behind it. -/
theorem sane_of_syn {s : Pcb} {wnd : ℕ} {L : Layout} (hwnd : wnd < 2 ^ 16)
    (hL : L = ⟨[], [], [synTile isn], 0, 0, 0⟩ ∨ L = ⟨[], [synTile isn], [], 0, 1, 1⟩)
    (hside : s.sendSide = ⟨[], [(synTile isn).seg], isn, seqAt isn L.nxt, seqAt isn 1, tcpSndBuf - 1, wnd, 0, [], false⟩)
    (hopen : Opening isn s) : Sane isn aim s := by
  have hfq : s.state.finQueued = false := congrArg SendSide.finQueued hside
  have hok := synTile_ok isn
  have hzero : seqAt isn 0 = isn := by
    rw [seqAt]
    bv_omega
  have hone {t : Tile} (ht : t ∈ L.unacked ++ L.again ++ L.fresh) : t = synTile isn := by
    rcases hL with rfl | rfl <;> exact List.mem_singleton.1 ht
  refine ⟨hopen, fun _ ↦ ⟨L, ⟨?_, fun h ↦ Bool.noConfusion (hfq.symm.trans h)⟩, fun _ ↦ ?_,
    fun _ h ↦ Bool.noConfusion (hfq.symm.trans h)⟩⟩
  · rw [hside]
    exact {
      unacked := by rcases hL with rfl | rfl <;> rfl
      unsent := by rcases hL with rfl | rfl <;> rfl
      ok := fun t ht ↦ hone ht ▸ hok
      fin := fun t ht ↦ by simp [hone ht, synTile]
      lastack := by rcases hL with rfl | rfl <;> exact hzero.symm
      sndNxt := rfl
      sndLbb := fun _ ↦ rfl
      acked_le := by rcases hL with rfl | rfl <;> exact Nat.zero_le _
      nxt_le := by
        rcases hL with rfl | rfl
        · exact Nat.zero_le _
        · exact Nat.le_refl 1
      room := by
        rcases hL with rfl | rfl <;> show tcpSndBuf - 1 + (1 - 0) ≤ tcpSndBuf + 0 <;> decide
      separate := by rcases hL with rfl | rfl <;> simp
      sorted := by rcases hL with rfl | rfl <;> exact List.Pairwise.nil
      sent := by rcases hL with rfl | rfl <;> simp [synTile, Tile.stop, TcpSeg.tcpLen, TcpSeg.len, toU16, reach]
      current := by rcases hL with rfl | rfl <;> exact List.forall_mem_nil _
      pieces := by
        rcases hL with rfl | rfl
        · exact ⟨rfl, rfl⟩
        · exact pieces_nil.2 rfl
      unfinished := by rcases hL with rfl | rfl <;> simp [synTile, Tile.stop, TcpSeg.tcpLen, TcpSeg.len, toU16]
      oversize := fun _ ↦ rfl
      sndWnd := hwnd }
  · rw [hside]
    rcases hL with rfl | rfl
    · exact ⟨⟨0, [], List.Perm.nil, Nat.le_refl 0, rfl⟩, List.Pairwise.nil, Nat.le_refl 0, List.forall_mem_nil _,
        List.forall_mem_nil _, rfl⟩
    · exact ⟨⟨0, [synTile isn], List.Perm.refl _, Nat.le_refl 0, rfl, rfl⟩, List.pairwise_singleton _ _, Nat.le_refl 1,
        List.forall_mem_nil _, List.forall_mem_singleton.2 Nat.one_pos, rfl⟩

theorem starts_sane {s : Pcb} (h : s.Starts) : Sane s.lastack aim s := by
  cases h with
  | connecting iss ticks mtu =>
    have hside : (connecting iss ticks mtu).sendSide = ⟨[], [(synTile (iss - 1)).seg], iss - 1, seqAt (iss - 1) 1,
        seqAt (iss - 1) 1, tcpSndBuf - 1, tcpWnd, 0, [], false⟩ := by
      have hseq : iss = seqAt (iss - 1) 1 := by
        rw [seqAt]
        bv_omega
      have hrfl : (connecting iss ticks mtu).sendSide =
        ⟨[], [(synTile (iss - 1)).seg], iss - 1, iss, iss - 1 + 1, tcpSndBuf - 1, tcpWnd, 0, [], false⟩ := rfl
      rw [hrfl, ← hseq, BitVec.sub_add_cancel]
    exact sane_of_syn (by decide : tcpWnd < 2 ^ 16) (.inr rfl) hside ⟨fun _ ↦ ⟨rfl, rfl, rfl⟩, TcpState.noConfusion⟩
  | accepting iss ticks g mtu =>
    have hlast : (accepting iss ticks g mtu).lastack = iss :=
      congrArg Accounts.lastack (accepting_accounts iss ticks g mtu)
    have hzero : seqAt iss 0 = iss := by
      rw [seqAt]
      bv_omega
    have hside : (accepting iss ticks g mtu).sendSide =
        ⟨[], [(synTile iss).seg], iss, seqAt iss 0, seqAt iss 1, tcpSndBuf - 1, g.wnd, 0, [], false⟩ := by
      rw [hzero, accepting, Pcb.tcpParseopt]
      split <;> rfl
    have hopen : Opening iss (accepting iss ticks g mtu) := by
      rw [accepting, Pcb.tcpParseopt]
      split <;> exact ⟨TcpState.noConfusion, fun _ ↦ rfl⟩
    rw [hlast]
    exact sane_of_syn g.wnd_lt (.inl rfl) hside hopen

/-- **In every run** whose steps keep to it, the send queues are right. -/
theorem run_sane {s : Pcb} (h₀ : s.Starts) {ls : List Label}
    (hrun : runLabels (guardStep (StepKeeps aim) Conn.step) ls (Conn.start s) = some c) : Sane s.lastack aim c.pcb := by
  refine runLabels_invariant (I := fun c : Conn ↦ Sane s.lastack aim c.pcb) (starts_sane h₀) (fun l c c' hc hl ↦ ?_) hrun
  obtain ⟨hkeeps, hl⟩ := guardStep_eq_some.1 hl
  exact step_sane hl hc hkeeps

/-! ### The queues in order -/

/-- The segments follow each other, from one sequence number to another. -/
def Contiguous : SeqNum → List TcpSeg → SeqNum → Prop
  | a, [], b => a = b
  | a, seg :: segs, b => seg.seqno = a ∧ Contiguous seg.endSeq segs b

theorem contiguous_of_pieces {w : List Byte} {xs : List Tile} {p e : ℕ} (hok : ∀ t ∈ xs, t.Ok isn w)
    (h : Pieces Tile.pos Tile.stop p xs e) : Contiguous (seqAt isn p) (xs.map Tile.seg) (seqAt isn e) := by
  induction xs generalizing p with
  | nil => exact congrArg (seqAt isn) h
  | cons x xs ih =>
    have hx := hok x List.mem_cons_self
    refine ⟨hx.seqno.trans (congrArg (seqAt isn) h.1), ?_⟩
    rw [hx.endSeq]
    exact ih (fun t ht ↦ hok t (List.mem_cons_of_mem x ht)) h.2

/-- The segments are in the order of their sequence numbers. -/
def Ordered (segs : List TcpSeg) : Prop := segs.Pairwise fun a b ↦ SeqLt a.seqno b.seqno

theorem ordered_of_stop_le {q : SendSide} {L : Layout} {xs : List Tile} (hq : Queues isn q L)
    (hsub : ∀ t ∈ xs, t ∈ L.unacked ++ L.again ++ L.fresh) (h : xs.Pairwise fun t u ↦ t.stop ≤ u.pos) :
    Ordered (xs.map Tile.seg) := by
  refine List.pairwise_map.2 (h.imp_of_mem fun {t u} ht hu hle ↦ ?_)
  have hlt := (hq.ok t (hsub t ht)).lt_stop
  exact (hq.seqLt_seqno (hsub t ht) (hsub u hu)).2 (hlt.trans_le hle)

theorem input_passes {g : InSeg} {env : InEnv} (h : Conn.step (.input g env) c = some c')
    (hpast : c.pcb.Passes c'.pcb (!c.released && c'.released)) :
    c.pcb.state.finQueued = true ∧ g.ack = true ∧ g.ackno = c.pcb.sndNxt := by
  rw [step] at h
  split_ifs at h with hbusy hwait
  · obtain rfl := Option.some.inj h
    rw [Bool.not_and_self] at hpast
    exact absurd hpast (not_passes (.inl (tcpTimewaitInput_state _ _ _)))
  rw [input] at h
  split_ifs at h
  · obtain rfl := Option.some.inj h
    rw [Bool.not_and_self] at hpast
    exact absurd hpast (not_passes (.inl rfl))
  obtain ⟨r, hr, rfl⟩ := Option.map_eq_some_iff.1 h
  refine tcpProcess_passes hr ?_
  split_ifs at hpast with hreset hclosed hgone
  · rw [Bool.not_and_self] at hpast
    exact absurd hpast (not_passes (.inr rfl))
  · exact .inr (.inr hclosed)
  all_goals
    rw [Bool.not_and_self] at hpast
    exact hpast.imp id (Or.imp id fun h ↦ Bool.noConfusion h)

/-- **The `FIN` waits as long as `snd_nxt` is in front of the end of the stream.** -/
theorem finWaits_iff {L : Layout} (hL : Holds isn c.pcb L) (hkept : FinKept c.pcb L) (hfin : c.pcb.state.finQueued = true) :
    c.pcb.FinWaits ↔ L.nxt < c.pcb.sendSide.stop := by
  have hq := hL.queues
  have hunsent : c.pcb.unsent = (L.again ++ L.fresh).map Tile.seg := hq.unsent
  have hmem {t : Tile} (ht : t ∈ L.again ++ L.fresh) : t ∈ L.unacked ++ L.again ++ L.fresh := by
    rw [List.append_assoc]
    exact List.mem_append_right _ ht
  constructor
  · rintro ⟨seg, hseg, -, hlt⟩
    rw [hunsent] at hseg
    obtain ⟨t, ht, rfl⟩ := List.mem_map.1 hseg
    exact ((hq.seqLt_endSeq (hmem ht)).1 hlt).trans_le (hq.le_stop (hmem ht))
  · intro hlt
    obtain ⟨t, ht, hf⟩ := hkept hfin hlt
    have ht' : t ∈ L.again ++ L.fresh := List.mem_append_right _ ht
    refine ⟨t.seg, ?_, hf, (hq.seqLt_endSeq (hmem ht')).2 (hq.unfinished t ht)⟩
    rw [hunsent]
    exact List.mem_map_of_mem ht'

/-- The acknowledgement of the `FIN` behind two bytes. -/
def finAck : Label :=
  .input ⟨1, 1004, 1000, false, false, false, true, none, [], fed_window_lt, fed_payload_le⟩ ⟨true, true, 0, [], .ok⟩

end Conn

end Lwip.Tcp
