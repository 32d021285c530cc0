import LwipPoc.Tcp.QueueLen
import LwipPoc.Tcp.SendRuns

/-!
# The bytes that are sent

Every data byte of a segment that was given to `ip_output` is the one that the application has written at its sequence
number (`Right`), however often it is sent. Most functions send nothing or segments without data (`Mute`); `tcp_output`
sends what is on `unsent`, and a probe of the window the first byte that is not acknowledged, and there the tiles of the
send queues say which bytes these are (`Loaded`). From a call of the application `tcp_output` comes last, so that it can
be looked at alone (`appCall_output`).
-/

namespace Lwip.Tcp

namespace Pcb

variable {isn : SeqNum} {s s' t : Pcb}

/-! ### What was sent -/

/-- **Every byte that was sent is the right one.** Only a probe may have sent a byte in place of the `SYN`. -/
def Right (isn : SeqNum) (s : Pcb) : Prop :=
  ∀ em ∈ s.sent, ∀ i b, em.data[i]? = some b →
    ∃ q, em.seqno + BitVec.ofNat 32 i = seqAt isn q ∧ (q = 0 ∨ byteAt s.written q = some b)

/-- A function that sends no data. -/
structure Mute (s s' : Pcb) : Prop where
  sent : ∃ ems, s'.sent = s.sent ++ ems ∧ ∀ em ∈ ems, em.data = []
  written : ∃ v, s'.written = s.written ++ v

theorem Mute.of_eq (hsent : s'.sent = s.sent) (hwritten : s'.written = s.written) : Mute s s' :=
  ⟨⟨[], hsent.trans (List.append_nil _).symm, List.forall_mem_nil _⟩, [], hwritten.trans (List.append_nil _).symm⟩

theorem Mute.refl : Mute s s := .of_eq rfl rfl

theorem Mute.trans (h : Mute s t) (h' : Mute t s') : Mute s s' := by
  obtain ⟨⟨ems, hems, hnil⟩, v, hv⟩ := h
  obtain ⟨⟨ems', hems', hnil'⟩, v', hv'⟩ := h'
  refine ⟨⟨ems ++ ems', by rw [hems', hems, List.append_assoc], fun em hem ↦ ?_⟩, v ++ v', by
    rw [hv', hv, List.append_assoc]⟩
  exact (List.mem_append.1 hem).elim (hnil em) (hnil' em)

theorem Mute.after (h : Mute t s') (hsent : t.sent = s.sent) (hwritten : t.written = s.written) : Mute s s' :=
  (of_eq hsent hwritten).trans h

theorem SendsNothing.mute (h : SendsNothing s s') : Mute s s' := .of_eq h.sent h.written

theorem Still.mute (h : Still s s') : Mute s s' :=
  ⟨h.sent, [], (congrArg SendSide.written h.sendSide).trans (List.append_nil _).symm⟩

theorem Quiet.mute (h : Quiet s s') : Mute s s' := h.still.mute

theorem Right.mute (h : Right isn s) (hm : Mute s s') : Right isn s' := by
  obtain ⟨⟨ems, hems, hnil⟩, v, hv⟩ := hm
  intro em hem i b hb
  rw [hems] at hem
  rcases List.mem_append.1 hem with hem | hem
  · obtain ⟨q, hq, hbyte⟩ := h em hem i b hb
    refine ⟨q, hq, hbyte.imp_right fun hbyte ↦ ?_⟩
    rw [hv]
    exact byteAt_append hbyte
  · rw [hnil em hem] at hb
    cases hb

/-- One more segment. -/
theorem Right.emit {em : Emitted} (h : Right isn s) (hsent : s'.sent = s.sent ++ [em]) (hwritten : s'.written = s.written)
    (hem : ∀ i b, em.data[i]? = some b →
      ∃ q, em.seqno + BitVec.ofNat 32 i = seqAt isn q ∧ (q = 0 ∨ byteAt s.written q = some b)) : Right isn s' := by
  intro em' hem' i b hb
  rw [hwritten]
  rw [hsent] at hem'
  rcases List.mem_append.1 hem' with hem' | hem'
  · exact h em' hem' i b hb
  · obtain rfl := List.mem_singleton.1 hem'
    exact hem i b hb

/-! ### `tcp_output` -/

/-- The send queues are empty, or hold tiles of the stream. -/
def Loaded (isn : SeqNum) (s : Pcb) : Prop := s.unacked ++ s.unsent = [] ∨ ∃ L, Holds isn s L

theorem Loaded.carry (h : Loaded isn s) (hc : Carries isn False False s s')
    (hnil : s.unacked ++ s.unsent = [] → s'.unacked ++ s'.unsent = []) : Loaded isn s' := by
  refine h.imp hnil ?_
  rintro ⟨L, hL⟩
  obtain ⟨L', hL', -⟩ := hc L hL
  exact ⟨L', hL'⟩

theorem Loaded.of_same (h : Loaded isn s) (hside : s'.sendSide = s.sendSide) (hsent : s.sent ⊆ s'.sent) :
    Loaded isn s' := by
  have hqueues : s'.unacked ++ s'.unsent = s.unacked ++ s.unsent :=
    congrArg₂ (· ++ ·) (congrArg SendSide.unacked hside) (congrArg SendSide.unsent hside)
  exact h.carry (.of_same hside hsent) fun hnil ↦ hqueues.trans hnil

/-- A segment on the queues is a tile. -/
theorem Loaded.tile {seg : TcpSeg} (h : Loaded isn s) (hseg : seg ∈ s.unacked ++ s.unsent) :
    ∃ x : Tile, x.seg = seg ∧ x.Ok isn s.written := by
  rcases h with hnil | ⟨L, hL⟩
  · rw [hnil] at hseg
    cases hseg
  have hq := hL.queues
  have hqueues : s.unacked ++ s.unsent = (L.unacked ++ L.again ++ L.fresh).map Tile.seg := by
    rw [show s.unacked = _ from hq.unacked, show s.unsent = _ from hq.unsent, ← List.map_append, List.append_assoc]
  rw [hqueues] at hseg
  obtain ⟨x, hx, rfl⟩ := List.mem_map.1 hseg
  exact ⟨x, rfl, hq.ok x hx⟩

theorem outputLoop_right {wnd : ℕ} (hwnd : wnd < 2 ^ 16) {q : List TcpSeg} (hs : s.unsent = q) (hl : Loaded isn s)
    (h : Right isn s) : Right isn (outputLoop wnd q s) := by
  induction q generalizing s with
  | nil => exact h
  | cons seg rest ih =>
    rw [outputLoop]
    split_ifs with hfits hnagle
    · exact h
    · have hseg : seg ∈ s.unacked ++ s.unsent := List.mem_append_right _ (hs ▸ List.mem_cons_self)
      obtain ⟨x, rfl, hx⟩ := hl.tile hseg
      obtain ⟨hside, -, hsent⟩ := outputOne_spec (s := s) rest hx.tcpLen_pos
      refine ih (outputOne_unsent _ rest) (hl.carry (outputOne_carries hs (hfits.trans_lt hwnd)) fun hnil ↦ ?_)
        (h.emit hsent (congrArg SendSide.written hside) fun i b hb ↦ ⟨x.pos + i, ?_, .inr (hx.bytes i b hb)⟩)
      · rw [hs] at hnil
        exact absurd (List.append_eq_nil_iff.1 hnil).2 (List.cons_ne_nil _ _)
      · rw [seqAt_add, ← hx.seqno]
    · exact h

theorem outputDone_mute : Mute s s.outputDone := by
  rw [outputDone]
  split_ifs <;> exact .of_eq rfl rfl

/-- Without segments it sends no data. -/
theorem tcpOutput_mute (input alloc : Bool) (hnil : s.unacked ++ s.unsent = []) : Mute s (s.tcpOutput input alloc) := by
  rcases tcpOutput_cases s input alloc with heq | heq | heq <;> rw [heq]
  · exact .refl
  · exact (tcpSendEmptyAck_still alloc).mute
  · rw [(List.append_eq_nil_iff.1 hnil).2]
    exact outputDone_mute

/-- **`tcp_output` sends the right bytes.** -/
theorem tcpOutput_right (input alloc : Bool) (hl : Loaded isn s) (h : Right isn s) : Right isn (s.tcpOutput input alloc) := by
  have hl' := hl
  rcases hl with hnil | ⟨L, hL⟩
  · exact h.mute (tcpOutput_mute input alloc hnil)
  have hwnd : min s.sndWnd s.cwnd < 2 ^ 16 := (Nat.min_le_left _ _).trans_lt hL.queues.sndWnd
  rcases tcpOutput_cases s input alloc with heq | heq | heq <;> rw [heq]
  · exact h
  · exact h.mute (tcpSendEmptyAck_still alloc).mute
  · exact (outputLoop_right hwnd rfl hl' h).mute outputDone_mute

/-! ### Timers -/

theorem tcpZeroWindowProbe_right (alloc : Bool) (junk : Byte) (hl : Loaded isn s) (h : Right isn s) :
    Right isn (s.tcpZeroWindowProbe alloc junk) := by
  rw [tcpZeroWindowProbe]
  split
  · exact h
  rename_i seg hhead
  obtain ⟨x, rfl, hx⟩ := hl.tile (List.mem_of_head? hhead)
  refine iteInduction (motive := fun v : Pcb ↦ Right isn v) (fun _ ↦ h.emit rfl rfl fun i b hb ↦ ?_) fun _ ↦ h
  dsimp only at hb ⊢
  split_ifs at hb with hfin
  · cases hb
  · obtain ⟨rfl, rfl⟩ : i = 0 ∧ b = x.seg.data.headD junk := by
      rcases i with - | i
      · exact ⟨rfl, (Option.some.inj hb).symm⟩
      · cases hb
    refine ⟨x.pos, by rw [hx.seqno]; exact BitVec.add_zero _, ?_⟩
    rcases hdata : x.seg.data with - | ⟨d, ds⟩
    · -- without data it is the `SYN`, since the `FIN` has been excluded
      have hsyn : x.seg.syn = true := by
        have hpos := hx.tcpLen_pos
        by_contra hs
        have hlen : x.seg.len = 0 := by rw [TcpSeg.len, hdata]; rfl
        rw [TcpSeg.tcpLen, hlen] at hpos
        simp_all
      exact .inl (hx.syn hsyn).2
    · exact .inr (hx.bytes 0 d (by rw [hdata]; rfl))

theorem tcpRexmitRto_right (alloc : Bool) (hl : Loaded isn s) (h : Right isn s) : Right isn (s.tcpRexmitRto alloc) := by
  rw [tcpRexmitRto]
  split_ifs
  · exact h
  · have hq : Loaded isn { s with unsent := s.unacked ++ s.unsent, unacked := [] } :=
      hl.carry (requeue_carries False.elim) id
    exact tcpOutput_right false alloc (hq.of_same rfl (List.Subset.refl _)) (h.mute (.of_eq rfl rfl))

theorem slowtmrRexmit_right (env : TickEnv) (hl : Loaded isn s) (h : Right isn s) : Right isn (s.slowtmrRexmit env) := by
  rw [slowtmrRexmit]
  split
  · refine iteInduction (motive := fun v : Pcb ↦ Right isn v) (fun _ ↦ ?_) fun _ ↦ h.mute (.of_eq rfl rfl)
    exact tcpZeroWindowProbe_right _ _ (hl.of_same rfl (List.Subset.refl _)) (h.mute (.of_eq rfl rfl))
  · generalize hv : (if 0 ≤ s.rtime then { s with rtime := toS16 (s.rtime + 1) } else s) = v
    have hsame : v.sendSide = s.sendSide ∧ v.sent = s.sent := by
      rw [← hv]
      split_ifs <;> exact ⟨rfl, rfl⟩
    have hlv : Loaded isn v := hl.of_same hsame.1 (hsame.2 ▸ List.Subset.refl _)
    have hrv : Right isn v := h.mute (.of_eq hsame.2 (congrArg SendSide.written hsame.1))
    refine iteInduction (motive := fun w : Pcb ↦ Right isn w) (fun _ ↦ ?_) fun _ ↦ hrv
    exact tcpRexmitRto_right _ (hlv.of_same rfl (List.Subset.refl _)) (hrv.mute (.of_eq rfl rfl))

theorem tcpPcbPurge_mute : Mute s s.tcpPcbPurge := by
  rw [tcpPcbPurge]
  split_ifs <;> exact .of_eq rfl rfl

theorem tcpSlowtmr_right (env : TickEnv) (hl : Loaded isn s) (h : Right isn s) : Right isn (s.tcpSlowtmr env) := by
  have hrexmit : Right isn (if s.givesUp then { s with ticks := s.ticks + 1 }
      else { s with ticks := s.ticks + 1 }.slowtmrRexmit env) := by
    have htick : Right isn { s with ticks := s.ticks + 1 } := h.mute (.of_eq rfl rfl)
    split_ifs
    · exact htick
    · exact slowtmrRexmit_right env (hl.of_same rfl (List.Subset.refl _)) htick
  have hgives : ({ s with ticks := s.ticks + 1 } : Pcb).givesUp = s.givesUp := rfl
  rw [tcpSlowtmr]
  dsimp only
  rw [hgives]
  refine hrexmit.mute ?_
  generalize (if s.givesUp then { s with ticks := s.ticks + 1 }
      else { s with ticks := s.ticks + 1 }.slowtmrRexmit env) = v
  have hkeepalive : Mute v (if env.keepalive then v.tcpKeepalive env.alloc else v) := by
    rw [tcpKeepalive]
    split_ifs
    · exact ⟨⟨[_], rfl, List.forall_mem_singleton.2 rfl⟩, [], (List.append_nil _).symm⟩
    · exact .refl
    · exact .refl
  refine hkeepalive.trans ?_
  generalize (if env.keepalive then v.tcpKeepalive env.alloc else v) = w
  have hdrop : Mute w (if env.dropOoseq then { w with ooseq := [] } else w) := by
    split_ifs <;> exact .of_eq rfl rfl
  refine hdrop.trans ?_
  generalize (if env.dropOoseq then { w with ooseq := [] } else w) = x
  split_ifs
  · exact tcpPcbPurge_mute.trans (.of_eq rfl rfl)
  · exact .refl

/-! ### Calls of the application -/

theorem tcpWrite_mute {arg : List Byte} {copy more : Bool} {alloc : ℕ → Bool} {r : Err × Pcb}
    (h : s.tcpWrite arg copy more alloc = some r) : Mute s r.2 := by
  rcases tcpWrite_cases h with ⟨-, hquiet, -⟩ | ⟨-, -, -, h⟩
  · exact hquiet.mute
  obtain ⟨-, ⟨-, hquiet⟩ | ⟨_, _, _, _, _, -, -, -, -, -, hmove⟩⟩ := writeChecked_cases h
  · exact hquiet.mute
  · exact ⟨⟨[], hmove.sent.trans (List.append_nil _).symm, List.forall_mem_nil _⟩, arg,
      congrArg SendSide.written hmove.sendSide⟩

theorem tcpSendFin_mute (alloc : Bool) : Mute s (s.tcpSendFin alloc).2 := by
  by_cases hok : (s.tcpSendFin alloc).1 = .ok
  · rcases tcpSendFin_cases (Prod.ext hok rfl) with ⟨_, _, -, -, -, hsent, hside⟩ | ⟨-, hsent, hside⟩
    · exact .of_eq hsent (congrArg SendSide.written hside)
    · exact .of_eq hsent (congrArg SendSide.written hside)
  · exact (tcpSendFin_fails hok).mute

/-- A control block without queues when the connection is over. -/
def Purged (s : Pcb) : Prop := s.state.over = true → s.unacked ++ s.unsent = []

theorem tcpPcbRemove_mute (input alloc : Bool) (h : input = false → s.Purged) : Mute s (s.tcpPcbRemove input alloc) := by
  refine tcpPcbPurge_mute.trans ?_
  rw [tcpPcbRemove]
  split_ifs
  · cases input with
    | true => exact .of_eq rfl rfl
    | false =>
      have hnil : s.tcpPcbPurge.unacked ++ s.tcpPcbPurge.unsent = [] := by
        rw [tcpPcbPurge]
        split_ifs with hover
        · exact h rfl (by rcases hover with hs | hs | hs <;> rw [hs] <;> rfl)
        · rfl
      have hout := tcpOutput_mute (s := { s.tcpPcbPurge with ackNow := true }) false alloc hnil
      exact ⟨hout.sent, hout.written⟩
  · exact .of_eq rfl rfl

theorem tcpCloseShutdown_mute {rst alloc ack : Bool} {r : Err × Pcb}
    (h : s.tcpCloseShutdown rst true alloc ack = some r) : Mute s r.2 := by
  have hfin (state : TcpState) : Mute s (if (s.tcpSendFin alloc).1 = .ok then
      (.ok, tcpOutput { (s.tcpSendFin alloc).2 with state := state } true ack) else s.tcpSendFin alloc : Err × Pcb).2 := by
    refine (tcpSendFin_mute alloc).trans ?_
    split_ifs <;> exact .of_eq rfl rfl
  rw [tcpCloseShutdown] at h
  split at h
  · split_ifs at h <;> obtain rfl := Option.some.inj h <;> exact tcpPcbPurge_mute.trans (.of_eq rfl rfl)
  · rcases hs : s.state <;> rw [hs] at h <;> obtain rfl := Option.some.inj h
    case synSent => exact tcpPcbRemove_mute true ack Bool.noConfusion
    case synRcvd | established | closeWait => exact hfin _
    all_goals exact .refl

theorem tcpShutdown_mute {shutRx shutTx alloc ack : Bool} {r : Err × Pcb}
    (h : s.tcpShutdown shutRx shutTx true alloc ack = some r) : Mute s r.2 := by
  rw [tcpShutdown] at h
  split at h
  · exact (tcpCloseShutdown_mute h).after rfl rfl
  generalize hu : (if shutRx = true then { s with rxClosed := true, refusedData := none } else s) = u at h
  have hsame : Mute s u := by
    rw [← hu]
    split_ifs <;> exact .of_eq rfl rfl
  refine hsame.trans ?_
  dsimp only at h
  split_ifs at h
  · rcases hs : u.state <;> rw [hs] at h
    case synRcvd | established | closeWait => exact tcpCloseShutdown_mute h
    all_goals
      obtain rfl := Option.some.inj h
      exact .refl
  · obtain rfl := Option.some.inj h
    exact .refl

/-- Without `tcp_output`, a call of the application sends nothing. -/
theorem appCall_mute {c : Call} (h : s.appCall true c = some s') : Mute s s' := by
  unfold appCall at h
  split_ifs at h
  rcases c with ⟨arg, copy, more, alloc⟩ | ⟨alloc, ack⟩ | ⟨shutRx, shutTx, alloc, ack⟩ | ⟨len, ack⟩ | ack | on | ack
  case write =>
    obtain ⟨r, hr, rfl⟩ := Option.map_eq_some_iff.1 h
    exact tcpWrite_mute hr
  case close =>
    obtain ⟨r, hr, rfl⟩ := Option.map_eq_some_iff.1 h
    exact (tcpCloseShutdown_mute hr).after rfl rfl
  case shutdown =>
    obtain ⟨r, hr, rfl⟩ := Option.map_eq_some_iff.1 h
    exact tcpShutdown_mute hr
  case recved =>
    obtain ⟨r, hr, rfl⟩ := Option.map_eq_some_iff.1 (Option.ite_none_right_eq_some.1 h).2
    have hwnd : Mute s r.2 := (tcpUpdateRcvAnnWnd_quiet hr).mute.after rfl rfl
    refine hwnd.trans ?_
    split_ifs <;> exact .of_eq rfl rfl
  case abort =>
    obtain rfl := Option.some.inj h
    exact tcpPcbRemove_mute true ack Bool.noConfusion
  all_goals
    obtain rfl := Option.some.inj h
    exact .of_eq rfl rfl

theorem appCalls_mute {cs : List Call} (h : s.appCalls true cs = some s') : Mute s s' := by
  induction cs generalizing s with
  | nil =>
    obtain rfl := Option.some.inj h
    exact .refl
  | cons c cs ih =>
    obtain ⟨u, hu, h⟩ := Option.bind_eq_some_iff.1 h
    exact (appCall_mute hu).trans (ih h)

/-- The state behind a call, or behind its `tcp_output`. -/
def Outputs (s s' : Pcb) : Prop := s' = s ∨ ∃ ack, s' = s.tcpOutput false ack

theorem tcpCloseShutdown_output {rst alloc ack : Bool} {r : Err × Pcb}
    (h : s.tcpCloseShutdown rst false alloc ack = some r) :
    Mute s r.2 ∨ ∃ r', s.tcpCloseShutdown rst true alloc ack = some r' ∧ Outputs r'.2 r.2 := by
  have hfin (state : TcpState) : Outputs (if (s.tcpSendFin alloc).1 = .ok then
        (.ok, tcpOutput { (s.tcpSendFin alloc).2 with state := state } true ack) else s.tcpSendFin alloc : Err × Pcb).2
      (if (s.tcpSendFin alloc).1 = .ok then
        (.ok, tcpOutput { (s.tcpSendFin alloc).2 with state := state } false ack) else s.tcpSendFin alloc : Err × Pcb).2 := by
    split_ifs
    · exact .inr ⟨ack, rfl⟩
    · exact .inl rfl
  rw [tcpCloseShutdown] at h ⊢
  by_cases hreset : rst = true ∧ (s.state = .established ∨ s.state = .closeWait) ∧
      (s.refusedData.isSome = true ∨ s.rcvWnd ≠ tcpWnd)
  · rw [if_pos hreset] at h ⊢
    exact .inr ⟨r, h, .inl rfl⟩
  · rw [if_neg hreset] at h ⊢
    rcases hs : s.state <;> rw [hs] at h <;> obtain rfl := Option.some.inj h
    case synSent => exact .inl (tcpPcbRemove_mute false ack fun _ hover ↦ by rw [hs] at hover; cases hover)
    case synRcvd | established | closeWait => exact .inr ⟨_, rfl, hfin _⟩
    all_goals exact .inr ⟨_, rfl, .inl rfl⟩

theorem tcpShutdown_output {shutRx shutTx alloc ack : Bool} {r : Err × Pcb}
    (h : s.tcpShutdown shutRx shutTx false alloc ack = some r) :
    Mute s r.2 ∨ ∃ r', s.tcpShutdown shutRx shutTx true alloc ack = some r' ∧ Outputs r'.2 r.2 := by
  rw [tcpShutdown] at h ⊢
  by_cases hboth : shutRx = true ∧ shutTx = true
  · rw [if_pos hboth] at h ⊢
    exact (tcpCloseShutdown_output h).imp_left fun hm ↦ hm.after rfl rfl
  rw [if_neg hboth] at h ⊢
  generalize hu : (if shutRx = true then { s with rxClosed := true, refusedData := none } else s) = u at h ⊢
  have hsame : Mute s u := by
    rw [← hu]
    split_ifs <;> exact .of_eq rfl rfl
  dsimp only at h ⊢
  by_cases htx : shutTx = true
  · rw [if_pos htx] at h ⊢
    rcases hs : u.state <;> rw [hs] at h
    case synRcvd | established | closeWait => exact (tcpCloseShutdown_output h).imp_left hsame.trans
    all_goals exact .inr ⟨r, h, .inl rfl⟩
  · rw [if_neg htx] at h ⊢
    exact .inr ⟨r, h, .inl rfl⟩

/-- **`tcp_output` comes last in a call**, unless no data is sent. -/
theorem appCall_output {c : Call} (h : s.appCall false c = some s') (hpurged : s.Purged) :
    Mute s s' ∨ ∃ u, s.appCall true c = some u ∧ Outputs u s' := by
  unfold appCall at h ⊢
  split_ifs at h ⊢
  rcases c with ⟨arg, copy, more, alloc⟩ | ⟨alloc, ack⟩ | ⟨shutRx, shutTx, alloc, ack⟩ | ⟨len, ack⟩ | ack | on | ack
  case close =>
    obtain ⟨r, hr, rfl⟩ := Option.map_eq_some_iff.1 h
    refine (tcpCloseShutdown_output hr).imp (fun hm ↦ hm.after rfl rfl) ?_
    rintro ⟨r', hr', ho⟩
    exact ⟨r'.2, Option.map_eq_some_iff.2 ⟨r', hr', rfl⟩, ho⟩
  case shutdown =>
    obtain ⟨r, hr, rfl⟩ := Option.map_eq_some_iff.1 h
    refine (tcpShutdown_output hr).imp_right ?_
    rintro ⟨r', hr', ho⟩
    exact ⟨r'.2, Option.map_eq_some_iff.2 ⟨r', hr', rfl⟩, ho⟩
  case recved =>
    obtain ⟨hlen, h⟩ := Option.ite_none_right_eq_some.1 h
    obtain ⟨r, hr, rfl⟩ := Option.map_eq_some_iff.1 h
    refine .inr ⟨_, Option.ite_none_right_eq_some.2 ⟨hlen, Option.map_eq_some_iff.2 ⟨r, hr, rfl⟩⟩, ?_⟩
    split_ifs
    · exact .inr ⟨ack, rfl⟩
    · exact .inl rfl
  case output => exact .inr ⟨s, rfl, .inr ⟨ack, (Option.some.inj h).symm⟩⟩
  case write | nodelay => exact .inr ⟨s', h, .inl rfl⟩
  case abort =>
    obtain rfl := Option.some.inj h
    exact .inl (tcpPcbRemove_mute false ack fun _ ↦ hpurged)

/-- **A call sends the right bytes.** -/
theorem appCall_right {input : Bool} {c : Call} (h : s.appCall input c = some s') (hpurged : s.Purged)
    (hl : ∀ u, s.appCall true c = some u → Loaded isn u) (hr : Right isn s) : Right isn s' := by
  cases input with
  | true => exact hr.mute (appCall_mute h)
  | false =>
    rcases appCall_output h hpurged with hm | ⟨u, hu, rfl | ⟨ack, rfl⟩⟩
    · exact hr.mute hm
    · exact hr.mute (appCall_mute hu)
    · exact tcpOutput_right false ack (hl u hu) (hr.mute (appCall_mute hu))

/-! ### Segments that arrive -/

theorem tcpReceive_mute {g : InSeg} {alloc ack : Bool} {r : Pcb × Received} (h : s.tcpReceive g alloc ack = some r) :
    Mute s r.1 := by
  obtain ⟨u, hu, hr⟩ := tcpReceive_cases h
  rcases hu with ⟨-, hu⟩ | ⟨-, rfl⟩
  · exact (receiveAck_sendsNothing hu).mute.trans (receiveData_still hr).mute
  · exact (receiveData_still hr).mute

theorem connected_mute {g : InSeg} {env : InEnv} (h : s.connected g env = some s') : Mute s s' := by
  rw [connected] at h
  split at h
  · cases h
  split at h
  · obtain ⟨u, hu, rfl⟩ := Option.map_eq_some_iff.1 (Option.ite_none_right_eq_some.1 h).2
    have hcalls : Mute s u := (appCalls_mute hu).after rfl rfl
    refine hcalls.trans ?_
    split_ifs <;> exact .of_eq rfl rfl
  · obtain rfl := Option.some.inj h
    exact .refl

theorem accepted_mute {g : InSeg} {env : InEnv} {r : Pcb × InResult} (h : s.accepted g env = some r) : Mute s r.1 := by
  obtain ⟨u, hu, h⟩ := Option.bind_eq_some_iff.1 h
  have hcalls : Mute s u := (appCalls_mute hu).after rfl rfl
  refine hcalls.trans ?_
  by_cases hresult : env.result ≠ .ok
  · rw [if_pos hresult] at h
    obtain rfl := Option.some.inj h
    dsimp only
    split_ifs
    · exact .refl
    · exact tcpPcbRemove_mute true env.ack Bool.noConfusion
  · rw [if_neg hresult] at h
    obtain ⟨v, hv, rfl⟩ := Option.map_eq_some_iff.1 h
    refine (tcpReceive_mute hv).trans ?_
    dsimp only
    split_ifs <;> exact .of_eq rfl rfl

theorem enterTimeWait_mute : Mute s s.enterTimeWait := tcpPcbPurge_mute.trans (.of_eq rfl rfl)

theorem processState_mute {g : InSeg} {env : InEnv} {r : Pcb × InResult} (h : s.processState g env = some r) :
    Mute s r.1 := by
  rw [processState] at h
  rcases hs : s.state <;> rw [hs] at h <;> dsimp only at h
  case closed | listen | timeWait =>
    obtain rfl := Option.some.inj h
    exact .refl
  case synSent =>
    split_ifs at h
    · obtain ⟨v, hv, rfl⟩ := Option.map_eq_some_iff.1 h
      exact connected_mute hv
    · obtain rfl := Option.some.inj h
      exact .refl
  case synRcvd =>
    split_ifs at h
    · exact accepted_mute h
    all_goals obtain rfl := Option.some.inj h
    · exact .refl
    · rw [tcpRexmit]
      split <;> exact .of_eq rfl rfl
    · exact .refl
  all_goals
    obtain ⟨v, hv, rfl⟩ := Option.map_eq_some_iff.1 h
    refine (tcpReceive_mute hv).trans ?_
  case lastAck => exact .refl
  all_goals
    dsimp only
    split_ifs
  all_goals first | exact .of_eq rfl rfl | exact enterTimeWait_mute.after rfl rfl

theorem tcpProcess_mute {g : InSeg} {env : InEnv} {r : Pcb × InResult} (h : s.tcpProcess g env = some r) :
    Mute s r.1 := by
  rw [tcpProcess] at h
  split at h
  · obtain rfl := Option.some.inj h
    exact iteInduction (motive := fun v : Pcb × InResult ↦ Mute s v.1) (fun _ ↦ .of_eq rfl rfl) fun _ ↦ .refl
  split at h
  · obtain rfl := Option.some.inj h
    exact .of_eq rfl rfl
  · refine (processState_mute h).after ?_ ?_ <;> rw [tcpParseopt] <;> split <;> rfl

/-- As long as the invariant of the send queues holds, they can be sent from. -/
theorem Sane.loaded (h : Sane isn .fin s) (hpurged : s.Purged) : Loaded isn s := by
  cases hover : s.state.over with
  | true => exact .inl (hpurged hover)
  | false =>
    obtain ⟨L, hL, -⟩ := h.layout (by revert hover; cases s.state <;> simp [TcpState.over, TcpState.within])
    exact .inr ⟨L, hL⟩

end Pcb

namespace Conn

open Pcb

variable {isn isn' : SeqNum} {c c' : Conn} {l : Label}

theorem reportFin_same : c.reportFin.pcb.sendSide = c.pcb.sendSide ∧ c.reportFin.pcb.sent = c.pcb.sent := by
  rw [reportFin]
  dsimp only
  split_ifs <;> exact ⟨rfl, rfl⟩

/-- **A step sends the right bytes.** -/
theorem step_right (h : Conn.step l c = some c') (hs : Sane isn .fin c.pcb) (hc : Counted isn' c.pcb.accounts)
    (hkeeps : StepKeeps .fin l c) (hr : Right isn c.pcb) : Right isn c'.pcb := by
  have hpurged : c.pcb.Purged := hc.purged
  have hl := hs.loaded hpurged
  -- `tcp_output`, after a change that the send queues are not concerned with
  have houtput {u : Pcb} (ack : Bool) (hside : u.sendSide = c.pcb.sendSide) (hsent : u.sent = c.pcb.sent) :
      Right isn (u.tcpOutput false ack) :=
    tcpOutput_right false ack (hl.of_same hside (hsent ▸ List.Subset.refl _))
      (hr.mute (.of_eq hsent (congrArg SendSide.written hside)))
  rcases l with a | ⟨g, env⟩ | ⟨accept, ack⟩ | ack | accept | ack | env
  case call =>
    obtain ⟨s, hcall, rfl⟩ := Option.map_eq_some_iff.1 h
    refine appCall_right hcall hpurged (fun u hu ↦ (hs.appCall hu hkeeps).loaded ?_) hr
    have hedits : Accounts.Edits (fun _ ↦ False) False c.pcb.accounts u.accounts := Pcb.appCall_edits hu
    exact (hc.edits hedits).purged
  case input =>
    rw [step] at h
    split_ifs at h with hbusy hwait
    · obtain rfl := Option.some.inj h
      have hnil : c.pcb.unacked ++ c.pcb.unsent = [] := hpurged (by rw [hwait]; rfl)
      refine hr.mute ?_
      rw [tcpTimewaitInput]
      split_ifs
      · exact .refl
      · exact .refl
      · exact (tcpOutput_mute (s := { c.pcb with ackNow := true }) false env.ack hnil).after rfl rfl
      · exact .refl
    rw [input] at h
    split_ifs at h
    · obtain rfl := Option.some.inj h
      exact hr
    · obtain ⟨r, hprocess, rfl⟩ := Option.map_eq_some_iff.1 h
      refine hr.mute ((tcpProcess_mute hprocess).trans ?_)
      have hremove := tcpPcbRemove_mute (s := r.1) true env.ack Bool.noConfusion
      split_ifs
      · exact hremove
      · exact hremove
      · exact .refl
      · exact .refl
  case recv =>
    rw [step, recv] at h
    split at h
    · cases h
    split_ifs at h <;> obtain rfl := Option.some.inj h
    · exact hr.mute (tcpPcbRemove_mute true ack Bool.noConfusion)
    · exact hr
    · exact hr.mute (.of_eq rfl rfl)
  case inputDone =>
    rw [step, inputDone] at h
    split at h
    · cases h
    split_ifs at h <;> obtain rfl := Option.some.inj h
    · dsimp only
      split
      · exact houtput ack rfl rfl
      · exact houtput ack reportFin_same.1 reportFin_same.2
    · exact houtput ack rfl rfl
  case refused =>
    rw [step] at h
    split_ifs at h
    rw [refused] at h
    split at h
    · cases h
    split_ifs at h <;> obtain rfl := Option.some.inj h
    · exact hr.mute (.of_eq reportFin_same.2 (congrArg SendSide.written reportFin_same.1))
    · exact hr.mute (.of_eq rfl rfl)
    · exact hr
  case fasttmr =>
    rw [step] at h
    split_ifs at h <;> obtain rfl := Option.some.inj h
    · have hout := houtput (u := { c.pcb with ackNow := true }) ack rfl rfl
      exact fun em hem ↦ hout em hem
    · exact hr
  case slowtmr =>
    rw [step] at h
    split_ifs at h
    obtain rfl := Option.some.inj h
    exact tcpSlowtmr_right env hl hr

end Conn

end Lwip.Tcp
