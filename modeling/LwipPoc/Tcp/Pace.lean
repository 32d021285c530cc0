import LwipPoc.Tcp.AccountSteps

/-!
# The pace of a connection

How fast a connection sends, and when it sends again, is decided by a few fields of the control block:
the maximum segment size, the congestion window and its threshold, the estimate of the round-trip time
with the timeout that comes from it, and the number of retransmissions. They are `Pcb.pace`.

Most functions leave them alone. Those that do not are few, and each writes a definite value: `Edit` lists
them. Every step of a run is made of these (`Conn.step_paced`).

Some of them go by what the control block was when the step began — that a segment is sent again, and
that a sample of the round-trip time is taken. `Edit` therefore has that control block as a parameter.
-/

namespace Lwip.Tcp

/-- The fields that decide about the pace. -/
structure Pace where
  mss : ℕ
  infr : Bool
  sa : ℤ
  sv : ℤ
  rto : ℤ
  nrtx : ℕ
  cwnd : ℕ
  ssthresh : ℕ
  deriving DecidableEq, Repr

/-- The fields that a measurement of the round-trip time goes by, and the last acknowledgement. -/
structure Watch where
  rttest : BitVec 32
  rtseq : SeqNum
  ticks : BitVec 32
  lastack : SeqNum
  deriving DecidableEq, Repr

namespace Pcb

/-- The pace of a control block. -/
def pace (s : Pcb) : Pace := ⟨s.mss, s.infr, s.sa, s.sv, s.rto, s.nrtx, s.cwnd, s.ssthresh⟩

/-- The measurement of a control block. -/
def watch (s : Pcb) : Watch := ⟨s.rttest, s.rtseq, s.ticks, s.lastack⟩

/-- The pace stays; and as long as `tcp_input` is working on the connection, so that nothing is sent, the
measurement does. -/
structure Steady (input : Bool) (s t : Pcb) : Prop where
  pace : t.pace = s.pace
  watch : input = true → t.watch = s.watch

variable {s t u : Pcb} {input : Bool}

theorem Steady.refl (s : Pcb) : Steady input s s := ⟨rfl, fun _ ↦ rfl⟩

theorem Steady.trans (h : Steady input s t) (h' : Steady input t u) : Steady input s u :=
  ⟨h'.pace.trans h.pace, fun hi ↦ (h'.watch hi).trans (h.watch hi)⟩

/-- What neither pace nor measurement reads does not matter. -/
theorem Steady.of_eq (hpace : t.pace = s.pace) (hwatch : t.watch = s.watch) : Steady input s t :=
  ⟨hpace, fun _ ↦ hwatch⟩

/-! ### Sending -/

theorem tcpSendEmptyAck_steady (alloc : Bool) : Steady input s (s.tcpSendEmptyAck alloc) := by
  rw [tcpSendEmptyAck]
  split_ifs
  · exact .of_eq rfl rfl
  · exact .refl s

theorem tcpOutputSegment_pace (seg : TcpSeg) : (s.tcpOutputSegment seg).pace = s.pace := by
  simp only [tcpOutputSegment, emit]
  split_ifs <;> rfl

theorem outputOne_pace (seg : TcpSeg) (rest : List TcpSeg) : (s.outputOne seg rest).pace = s.pace := by
  have hu : (if s.state ≠ .synSent then { s with unsent := rest, ackDelay := false, ackNow := false }
      else { s with unsent := rest } : Pcb).pace = s.pace := by
    split_ifs <;> rfl
  have hdone : ∀ v : Pcb, (let v := if SeqLt v.sndNxt seg.endSeq then { v with sndNxt := seg.endSeq } else v
      if 0 < seg.tcpLen then { v with unacked := insertUnacked seg v.unacked } else v : Pcb).pace = v.pace := by
    intro v
    dsimp only
    split_ifs <;> rfl
  exact (hdone _).trans ((tcpOutputSegment_pace seg).trans hu)

theorem outputLoop_pace (wnd : ℕ) (q : List TcpSeg) (s : Pcb) : (outputLoop wnd q s).pace = s.pace := by
  induction q generalizing s with
  | nil => rfl
  | cons seg rest ih =>
    rw [outputLoop]
    split_ifs
    · rfl
    · rw [ih, outputOne_pace]
    · rfl

theorem tcpOutput_pace (input alloc : Bool) : (s.tcpOutput input alloc).pace = s.pace := by
  rcases tcpOutput_cases s input alloc with h | h | h
  · rw [h]
  · rw [h]
    have hack : Steady true s (s.tcpSendEmptyAck alloc) := tcpSendEmptyAck_steady alloc
    exact hack.pace
  · rw [h, outputDone]
    split_ifs <;> exact outputLoop_pace ..

/-- While `tcp_input` is working on the connection, `tcp_output` does nothing. -/
theorem tcpOutput_steady (input alloc : Bool) : Steady input s (s.tcpOutput input alloc) := by
  refine ⟨tcpOutput_pace input alloc, ?_⟩
  rintro rfl
  rfl

theorem tcpZeroWindowProbe_pace (alloc : Bool) (junk : Byte) :
    (s.tcpZeroWindowProbe alloc junk).pace = s.pace := by
  rw [tcpZeroWindowProbe]
  split
  · rfl
  · dsimp only
    split_ifs <;> rfl

theorem tcpKeepalive_pace (alloc : Bool) : (s.tcpKeepalive alloc).pace = s.pace := by
  rw [tcpKeepalive]
  split_ifs <;> rfl

/-! ### Writing and closing -/

theorem tcpWrite_steady {arg : List Byte} {copy more : Bool} {alloc : ℕ → Bool} {r : Err × Pcb}
    (h : s.tcpWrite arg copy more alloc = some r) : Steady input s r.2 := by
  obtain ⟨c, hc, h⟩ := Option.bind_eq_some_iff.1 h
  have hchecked : Steady input s c.2 := by
    rw [tcpWriteChecks] at hc
    split_ifs at hc <;> obtain rfl := Option.some.inj hc <;> exact .of_eq rfl rfl
  split at h
  · split_ifs at h
    obtain rfl := Option.some.inj h
    refine hchecked.trans ?_
    rw [writeChecked]
    split_ifs
    · exact .of_eq rfl rfl
    all_goals split <;> exact .of_eq rfl rfl
  · obtain rfl := Option.some.inj h
    exact hchecked

theorem tcpEnqueueFlags_steady (syn fin alloc : Bool) : Steady input s (s.tcpEnqueueFlags syn fin alloc).2 := by
  rw [tcpEnqueueFlags]
  split_ifs <;> exact .of_eq rfl rfl

theorem tcpSendFin_steady (alloc : Bool) : Steady input s (s.tcpSendFin alloc).2 := by
  rw [tcpSendFin]
  split
  · split_ifs
    · exact .of_eq rfl rfl
    · exact tcpEnqueueFlags_steady false true alloc
  · exact tcpEnqueueFlags_steady false true alloc

theorem tcpPcbPurge_steady : Steady input s s.tcpPcbPurge := by
  rw [tcpPcbPurge]
  split_ifs <;> exact .of_eq rfl rfl

theorem tcpPcbRemove_steady (input alloc : Bool) : Steady input s (s.tcpPcbRemove input alloc) := by
  have hpurge : Steady input s s.tcpPcbPurge := tcpPcbPurge_steady
  rw [tcpPcbRemove]
  refine hpurge.trans ?_
  split_ifs
  · have hout : Steady input { s.tcpPcbPurge with ackNow := true } _ := tcpOutput_steady input alloc
    exact ⟨hout.pace, hout.watch⟩
  · exact .of_eq rfl rfl

theorem tcpCloseShutdown_steady {rst input alloc ack : Bool} {r : Err × Pcb}
    (h : s.tcpCloseShutdown rst input alloc ack = some r) : Steady input s r.2 := by
  have hsend : ∀ state : TcpState, Steady input s (if (s.tcpSendFin alloc).1 = .ok then
      (.ok, tcpOutput { (s.tcpSendFin alloc).2 with state := state } input ack)
      else s.tcpSendFin alloc : Err × Pcb).2 := by
    intro state
    have hfin : Steady input s (s.tcpSendFin alloc).2 := tcpSendFin_steady alloc
    split_ifs
    · have hout : Steady input { (s.tcpSendFin alloc).2 with state := state } _ := tcpOutput_steady input ack
      exact hfin.trans ⟨hout.pace, hout.watch⟩
    · exact hfin
  have hpurge : Steady input s s.tcpPcbPurge := tcpPcbPurge_steady
  rw [tcpCloseShutdown] at h
  by_cases hreset : rst = true ∧ (s.state = .established ∨ s.state = .closeWait) ∧
      (s.refusedData.isSome = true ∨ s.rcvWnd ≠ tcpWnd)
  · rw [if_pos hreset] at h
    split_ifs at h
    · obtain rfl := Option.some.inj h
      exact ⟨hpurge.pace, hpurge.watch⟩
    · obtain rfl := Option.some.inj h
      exact ⟨hpurge.pace, hpurge.watch⟩
  · rw [if_neg hreset] at h
    rcases hs : s.state <;> rw [hs] at h <;> obtain rfl := Option.some.inj h
    case synSent => exact tcpPcbRemove_steady input ack
    case synRcvd | established | closeWait => exact hsend _
    all_goals exact .refl s

theorem tcpShutdown_steady {shutRx shutTx input alloc ack : Bool} {r : Err × Pcb}
    (h : s.tcpShutdown shutRx shutTx input alloc ack = some r) : Steady input s r.2 := by
  rw [tcpShutdown] at h
  by_cases hboth : shutRx = true ∧ shutTx = true
  · rw [if_pos hboth] at h
    have hclose := tcpCloseShutdown_steady h
    exact ⟨hclose.pace, hclose.watch⟩
  · rw [if_neg hboth] at h
    generalize hu : (if shutRx = true then { s with rxClosed := true, refusedData := none } else s) = u
      at h
    have hsame : Steady input s u := by
      rw [← hu]
      split_ifs <;> exact .of_eq rfl rfl
    refine hsame.trans ?_
    dsimp only at h
    split_ifs at h
    · rcases hs : u.state <;> rw [hs] at h
      case synRcvd | established | closeWait => exact tcpCloseShutdown_steady h
      all_goals
        obtain rfl := Option.some.inj h
        exact .of_eq rfl rfl
    · obtain rfl := Option.some.inj h
      exact .of_eq rfl rfl

theorem tcpRecved_steady {len : ℕ} {input ack : Bool} (h : s.tcpRecved len input ack = some t) :
    Steady input s t := by
  rw [tcpRecved] at h
  split_ifs at h
  obtain ⟨r, hr, rfl⟩ := Option.map_eq_some_iff.1 h
  obtain ⟨wnd, heq, -⟩ := tcpUpdateRcvAnnWnd_announces hr
  rw [heq]
  dsimp only
  split_ifs
  · have hout : Steady input { s with
        rcvWnd := min (s.rcvWnd + len) tcpWnd, rcvAnnWnd := wnd, ackNow := true } _ :=
      tcpOutput_steady input ack
    exact ⟨hout.pace, hout.watch⟩
  · exact .of_eq rfl rfl

/-! ### Calls of the application -/

theorem appCall_steady {c : Call} (h : s.appCall input c = some t) : Steady input s t := by
  rw [appCall.eq_def] at h
  split_ifs at h
  cases c with
  | write arg copy more alloc =>
    obtain ⟨r, hr, rfl⟩ := Option.map_eq_some_iff.1 h
    exact tcpWrite_steady hr
  | close alloc ack =>
    obtain ⟨r, hr, rfl⟩ := Option.map_eq_some_iff.1 h
    have hclose := tcpCloseShutdown_steady hr
    exact ⟨hclose.pace, hclose.watch⟩
  | shutdown shutRx shutTx alloc ack =>
    obtain ⟨r, hr, rfl⟩ := Option.map_eq_some_iff.1 h
    exact tcpShutdown_steady hr
  | recved len ack => exact tcpRecved_steady h
  | output ack =>
    obtain rfl := Option.some.inj h
    exact tcpOutput_steady input ack
  | nodelay on =>
    obtain rfl := Option.some.inj h
    exact .of_eq rfl rfl
  | abort ack =>
    obtain rfl := Option.some.inj h
    exact tcpPcbRemove_steady input ack

theorem appCalls_steady {cs : List Call} (h : s.appCalls input cs = some t) : Steady input s t := by
  induction cs generalizing s with
  | nil =>
    obtain rfl := Option.some.inj h
    exact .refl s
  | cons c cs ih =>
    obtain ⟨u, hu, h⟩ := Option.bind_eq_some_iff.1 h
    exact (appCall_steady hu).trans (ih h)

/-! ### Data -/

theorem acceptSeg_steady {seqno : SeqNum} {tcplen : ℕ} (h : s.acceptSeg seqno tcplen = some t) :
    Steady input s t := by
  rw [acceptSeg] at h
  split_ifs at h
  obtain ⟨r, hr, rfl⟩ := Option.map_eq_some_iff.1 h
  obtain ⟨wnd, heq, -⟩ := tcpUpdateRcvAnnWnd_announces hr
  rw [heq]
  exact .of_eq rfl rfl

theorem splice_steady {q : List OoSeg} {r : Received} {r' : Pcb × Received} (h : splice q s r = some r') :
    Steady input s r'.1 := by
  induction q generalizing s r with
  | nil =>
    obtain rfl := Option.some.inj h
    exact .refl s
  | cons cseg rest ih =>
    rw [splice] at h
    split_ifs at h
    · obtain ⟨u, hu, h⟩ := Option.bind_eq_some_iff.1 h
      have hrest : Steady input _ r'.1 := ih h
      exact (acceptSeg_steady hu).trans ⟨hrest.pace, hrest.watch⟩
    · obtain rfl := Option.some.inj h
      exact .refl s

theorem receiveInSequence_steady {inseg : OoSeg} {r : Pcb × Received}
    (h : s.receiveInSequence inseg = some r) : Steady input s r.1 := by
  obtain ⟨i, -, h⟩ := Option.bind_eq_some_iff.1 h
  obtain ⟨j, -, h⟩ := Option.bind_eq_some_iff.1 h
  obtain ⟨u, hu, h⟩ := Option.bind_eq_some_iff.1 h
  obtain ⟨v, hv, rfl⟩ := Option.map_eq_some_iff.1 h
  have haccept : Steady input _ u := acceptSeg_steady hu
  have hsplice : Steady input u v.1 := splice_steady hv
  have hack : Steady input v.1 v.1.tcpAck := by
    rw [tcpAck]
    split_ifs <;> exact .of_eq rfl rfl
  refine Steady.trans ⟨haccept.pace, haccept.watch⟩ (hsplice.trans hack)

theorem receiveData_steady {g : InSeg} {alloc ack : Bool} {r : Pcb × Received}
    (h : s.receiveData g alloc ack = some r) : Steady input s r.1 := by
  obtain ⟨u, hu, hr⟩ := receiveData_cases h
  have hsame : Steady input s u := by rcases hu with rfl | rfl <;> exact .of_eq rfl rfl
  refine hsame.trans ?_
  rcases hr with ⟨i, -, -, hi⟩ | ⟨q, rfl⟩ | rfl | rfl
  · exact receiveInSequence_steady hi
  · have hack : Steady input u _ := tcpSendEmptyAck_steady ack
    exact ⟨hack.pace, hack.watch⟩
  · exact tcpSendEmptyAck_steady ack
  · exact .of_eq rfl rfl

/-! ### What goes by the start of a step -/

/-- A duplicate of the peer's `SYN`, for a connection in `SYN_RCVD`. -/
def DuplicateSyn (s : Pcb) (g : InSeg) : Prop :=
  s.state = .synRcvd ∧ g.ack = false ∧ g.syn = true ∧ g.seqno = s.rcvNxt - 1

/-- The third duplicate of an acknowledgement. -/
def ThirdDuplicate (s : Pcb) (g : InSeg) : Prop :=
  g.ack = true ∧ g.ackno = s.lastack ∧ g.tcplen = 0 ∧
    (s.updateWindow g).sndWl2 + BitVec.ofNat 32 (s.updateWindow g).sndWnd =
      BitVec.ofNat 32 s.sndWnd + s.sndWl2 ∧
    0 ≤ s.rtime ∧ s.dupacks = 2 ∧ s.infr = false

/-- **The segments that make `tcp_rexmit` send again**: they count as retransmissions, though no time has
passed. -/
def Resends (s : Pcb) (g : InSeg) : Prop :=
  g.rst = false ∧ s.unacked ≠ [] ∧ (s.DuplicateSyn g ∨ s.state.synchronized = true ∧ s.ThirdDuplicate g)

instance (s : Pcb) (g : InSeg) : Decidable (s.DuplicateSyn g) := inferInstanceAs (Decidable (_ ∧ _))

instance (s : Pcb) (g : InSeg) : Decidable (s.ThirdDuplicate g) := inferInstanceAs (Decidable (_ ∧ _))

instance (s : Pcb) (g : InSeg) : Decidable (s.Resends g) := inferInstanceAs (Decidable (_ ∧ _))

/-- `tcp_receive` looks at the acknowledgement number. -/
def Heard (s : Pcb) (g : InSeg) : Prop :=
  g.rst = false ∧ (s.state.synchronized = true ∧ g.syn = false ∨
    s.state = .synRcvd ∧ SeqBetween g.ackno (s.lastack + 1) s.sndNxt)

instance (s : Pcb) (g : InSeg) : Decidable (s.Heard g) := inferInstanceAs (Decidable (_ ∧ _))

/-- **A sample** of the round-trip time is taken. -/
def Samples (s : Pcb) (g : InSeg) : Prop := s.Heard g ∧ g.ack = true ∧ s.rttest ≠ 0 ∧ SeqLt s.rtseq g.ackno

instance (s : Pcb) (g : InSeg) : Decidable (s.Samples g) := inferInstanceAs (Decidable (_ ∧ _))

/-- The retransmission timer runs out at the next tick. -/
def TimesOut (s : Pcb) : Prop :=
  s.givesUp = false ∧ s.persistBackoff = 0 ∧ s.unacked ≠ [] ∧
    s.rto ≤ if 0 ≤ s.rtime then toS16 (s.rtime + 1) else s.rtime

instance (s : Pcb) : Decidable s.TimesOut := inferInstanceAs (Decidable (_ ∧ _))

end Pcb

/-! ### The edits -/

namespace Pace

/-- The estimate after a sample of `m` ticks. -/
def estimate (p : Pace) (m : ℤ) : Pace :=
  let m := toS16 (m - p.sa / 8)
  let sa := toS16 (p.sa + m)
  let m := if m < 0 then toS16 (-m) else m
  let m := toS16 (m - p.sv / 4)
  let sv := toS16 (p.sv + m)
  { p with sa := sa, sv := sv, rto := toS16 (sa / 8 + sv) }

/-- The window when a retransmission starts at the threshold `t`. -/
def restart (p : Pace) (t : ℕ) : Pace :=
  let ssthresh := if t < 2 * p.mss then toU16 (2 * p.mss) else t
  { p with ssthresh := ssthresh, cwnd := toU16 (ssthresh + 3 * p.mss), infr := true }

/-- A retransmission by the timer; `synSent` says that the timeout stays as it is, and `t` is half the
window. -/
def backOff (p : Pace) (synSent : Bool) (t : ℕ) : Pace :=
  { p with
    rto := if synSent then p.rto else toS16 ((p.sa / 8 + p.sv) * 2 ^ tcpBackoff.getD p.nrtx 0)
    ssthresh := if t < p.mss * 2 then toU16 (p.mss * 2) else t
    cwnd := p.mss
    nrtx := (p.nrtx + 1) % 2 ^ 8 }

/-- **An edit of the pace** in a step that begins with the control block `s`. -/
inductive Edit (s : Pcb) : Label → Pace → Pace → Prop
  /-- The MSS option. -/
  | option (p : Pace) (g : InSeg) (env : InEnv) (mss : ℕ) (hmss : 1 ≤ mss ∧ mss ≤ tcpMss) :
      Edit s (.input g env) p { p with mss := mss }
  /-- The `SYN` of the peer has arrived, in `SYN_SENT`. -/
  | connect (p : Pace) (g : InSeg) (env : InEnv) (nrtx : ℕ) (hnrtx : nrtx = p.nrtx ∨ nrtx = 0) :
      Edit s (.input g env) p { p with
        mss := tcpEffSendMss env.mtu p.mss
        ssthresh := toU16 (tcpEffSendMss env.mtu p.mss * 10)
        cwnd := if p.cwnd = 1 then toU16 (tcpEffSendMss env.mtu p.mss * 2) else tcpEffSendMss env.mtu p.mss
        nrtx := nrtx }
  /-- The `SYN` has been acknowledged, in `SYN_RCVD`. -/
  | accept (p : Pace) (g : InSeg) (env : InEnv) (cwnd : ℕ) (hcwnd : cwnd = toU16 (p.mss * 2) ∨ cwnd = p.mss) :
      Edit s (.input g env) p { p with cwnd := cwnd }
  /-- `tcp_rexmit`. -/
  | resend (p : Pace) (g : InSeg) (env : InEnv) (h : s.Resends g) (hp : p.nrtx = s.nrtx) :
      Edit s (.input g env) p { p with nrtx := (p.nrtx + 1) % 2 ^ 8 }
  /-- `tcp_rexmit_fast`, behind `tcp_rexmit`. -/
  | restart (p : Pace) (g : InSeg) (env : InEnv) (t : ℕ) (ht : t ≤ p.cwnd / 2) :
      Edit s (.input g env) p (p.restart t)
  /-- The congestion window grows. -/
  | grow (p : Pace) (g : InSeg) (env : InEnv) (cwnd : ℕ) (hle : p.cwnd < cwnd) (hlt : cwnd < 2 ^ 16) :
      Edit s (.input g env) p { p with cwnd := cwnd }
  /-- New data was acknowledged. -/
  | newAck (p : Pace) (g : InSeg) (env : InEnv) :
      Edit s (.input g env) p { p with
        infr := false
        cwnd := if p.infr then p.ssthresh else p.cwnd
        nrtx := 0
        rto := toS16 (p.sa / 8 + p.sv) }
  /-- A sample of the round-trip time. -/
  | sample (p : Pace) (g : InSeg) (env : InEnv) (h : s.Samples g) (hsa : p.sa = s.sa) (hsv : p.sv = s.sv) :
      Edit s (.input g env) p (p.estimate (toS16 (s.ticks - s.rttest).toNat))
  /-- The retransmission timer. -/
  | backOff (env : Pcb.TickEnv) (h : s.TimesOut) :
      Edit s (.slowtmr env) s.pace
        (s.pace.backOff (decide (s.state = .synSent)) (min s.cwnd s.sndWnd / 2))

/-- Edits, one after another. -/
abbrev Edits (s : Pcb) (l : Label) : Pace → Pace → Prop := Relation.ReflTransGen (Edit s l)

theorem Edits.of_eq {s : Pcb} {l : Label} {p q : Pace} (h : q = p) : Edits s l p q := by
  rw [h]

end Pace

namespace Pcb

open Pace (Edit Edits)

variable {s₀ s t : Pcb} {g : InSeg} {env : InEnv}

/-! ### Acknowledgements -/

theorem updateWindow_steady (g : InSeg) : (s.updateWindow g).pace = s.pace ∧ (s.updateWindow g).watch = s.watch := by
  rw [updateWindow]
  split_ifs <;> exact ⟨rfl, rfl⟩

theorem inflateCwnd_paced : Edits s₀ (.input g env) s.pace s.inflateCwnd.pace := by
  rw [inflateCwnd]
  split_ifs with hlt
  · exact .single (Edit.grow s.pace g env _ hlt (Nat.mod_lt _ (by decide)))
  · exact .refl

theorem growCwnd_paced : Edits s₀ (.input g env) s.pace s.growCwnd.pace := by
  rw [growCwnd]
  split_ifs with hslow
  · exact inflateCwnd_paced
  · dsimp only
    split_ifs with hlt
    · exact .single (Edit.grow s.pace g env _ hlt (Nat.mod_lt _ (by decide)))
    · exact .refl

theorem tcpRexmit_pace : s.tcpRexmit.pace = s.pace ∧ s.unacked = [] ∨
    s.tcpRexmit.pace = { s.pace with nrtx := (s.nrtx + 1) % 2 ^ 8 } ∧ s.unacked ≠ [] := by
  rw [tcpRexmit]
  split
  · next h => exact Or.inl ⟨rfl, h⟩
  · next h => exact Or.inr ⟨rfl, by rw [h]; simp⟩

theorem tcpRexmitFast_paced (h : s.unacked ≠ [] → s.infr = false → s₀.Resends g) (hp : s.nrtx = s₀.nrtx) :
    Edits s₀ (.input g env) s.pace s.tcpRexmitFast.pace := by
  rw [tcpRexmitFast]
  split_ifs with hfast
  · have hresend : Edits s₀ (.input g env) s.pace s.tcpRexmit.pace := by
      rcases tcpRexmit_pace (s := s) with ⟨heq, hnil⟩ | ⟨heq, -⟩
      · exact absurd hnil hfast.1
      · rw [heq]
        exact .single (Edit.resend s.pace g env (h hfast.1 hfast.2) hp)
    refine hresend.tail ?_
    generalize s.tcpRexmit = u
    refine Edit.restart u.pace g env (if u.sndWnd < u.cwnd then u.sndWnd / 2 else u.cwnd / 2) ?_
    show _ ≤ u.cwnd / 2
    split_ifs <;> omega
  · exact .refl

/-- The estimate stays, and the measurement goes on or is given up. -/
structure Measures (s t : Pcb) : Prop where
  sa : t.sa = s.sa
  sv : t.sv = s.sv
  rtseq : t.rtseq = s.rtseq
  ticks : t.ticks = s.ticks
  rttest : t.rttest = s.rttest ∨ t.rttest = 0

theorem Measures.of_eq (hpace : t.pace = s.pace) (hwatch : t.watch = s.watch) : Measures s t :=
  ⟨congrArg Pace.sa hpace, congrArg Pace.sv hpace, congrArg Watch.rtseq hwatch, congrArg Watch.ticks hwatch,
    Or.inl (congrArg Watch.rttest hwatch)⟩

theorem Measures.trans {u : Pcb} (h : Measures s t) (h' : Measures t u) : Measures s u := by
  refine ⟨h'.sa.trans h.sa, h'.sv.trans h.sv, h'.rtseq.trans h.rtseq, h'.ticks.trans h.ticks, ?_⟩
  rcases h'.rttest with heq | hzero
  · rw [heq]
    exact h.rttest
  · exact Or.inr hzero

theorem inflateCwnd_measures : Measures s s.inflateCwnd := by
  rw [inflateCwnd]
  split_ifs <;> exact ⟨rfl, rfl, rfl, rfl, Or.inl rfl⟩

theorem growCwnd_measures : Measures s s.growCwnd := by
  rw [growCwnd]
  split_ifs
  · exact inflateCwnd_measures
  · dsimp only
    split_ifs <;> exact ⟨rfl, rfl, rfl, rfl, Or.inl rfl⟩

theorem tcpRexmitFast_measures : Measures s s.tcpRexmitFast := by
  rw [tcpRexmitFast, tcpRexmit]
  split_ifs
  · split <;> exact ⟨rfl, rfl, rfl, rfl, by first | exact Or.inl rfl | exact Or.inr rfl⟩
  · exact ⟨rfl, rfl, rfl, rfl, Or.inl rfl⟩

theorem countDupack_paced : s.countDupack.pace = s.pace ∧ Measures s s.countDupack ∧
    s.countDupack.infr = s.infr ∧ s.countDupack.unacked = s.unacked ∧
    (s.countDupack.dupacks = 3 → s.dupacks = 2 ∨ s.dupacks = 3 ∧ 2 ^ 8 ≤ s.dupacks + 1) := by
  rw [countDupack]
  split_ifs
  · exact ⟨rfl, ⟨rfl, rfl, rfl, rfl, Or.inl rfl⟩, rfl, rfl, fun h ↦ Or.inl (Nat.succ.inj h)⟩
  · exact ⟨rfl, ⟨rfl, rfl, rfl, rfl, Or.inl rfl⟩, rfl, rfl, fun h ↦ Or.inr ⟨h, by omega⟩⟩

theorem duplicateAck_paced {edge : SeqNum}
    (h : g.tcplen = 0 → s.sndWl2 + BitVec.ofNat 32 s.sndWnd = edge → 0 ≤ s.rtime → s.lastack = g.ackno →
      s.dupacks = 2 → s.infr = false → s.unacked ≠ [] → s₀.Resends g) (hp : s.nrtx = s₀.nrtx) :
    Edits s₀ (.input g env) s.pace (s.duplicateAck g edge).pace ∧ Measures s (s.duplicateAck g edge) := by
  obtain ⟨hpace, hmeasures, hinfr, hunacked, hcount⟩ := countDupack_paced (s := { s with acked := 0 })
  have hzero : Measures s { s with acked := 0 } := ⟨rfl, rfl, rfl, rfl, Or.inl rfl⟩
  rw [duplicateAck]
  dsimp only
  split_ifs with hdup hmany hthird
  · have hgrow : Edits s₀ (.input g env) { s with acked := 0 }.countDupack.pace _ := inflateCwnd_paced
    rw [hpace] at hgrow
    exact ⟨hgrow, (hzero.trans hmeasures).trans inflateCwnd_measures⟩
  · obtain ⟨hlen, hedge, hrtime, hlast⟩ := hdup
    have hfast : Edits s₀ (.input g env) { s with acked := 0 }.countDupack.pace
        { s with acked := 0 }.countDupack.tcpRexmitFast.pace := by
      refine tcpRexmitFast_paced (fun hne hoff ↦ ?_) ((congrArg Pace.nrtx hpace).trans hp)
      refine h hlen hedge hrtime hlast ?_ (hinfr.symm.trans hoff) (by rwa [hunacked] at hne)
      rcases hcount hthird with hcount | ⟨hcount, hle⟩
      · exact hcount
      · omega
    rw [hpace] at hfast
    exact ⟨hfast, (hzero.trans hmeasures).trans tcpRexmitFast_measures⟩
  · exact ⟨.of_eq hpace, hzero.trans hmeasures⟩
  · exact ⟨.refl, ⟨rfl, rfl, rfl, rfl, Or.inl rfl⟩⟩

theorem freeAcked_steady {seg : TcpSeg} (h : s.freeAcked seg = some t) : t.pace = s.pace ∧ t.watch = s.watch := by
  rw [freeAcked] at h
  simp only [Option.ite_none_left_eq_some, Option.some.injEq] at h
  obtain ⟨-, -, rfl⟩ := h
  exact ⟨rfl, rfl⟩

theorem ackUnacked_steady {ackno : SeqNum} {q : List TcpSeg} (h : ackUnacked ackno q s = some t) :
    t.pace = s.pace ∧ t.watch = s.watch := by
  induction q generalizing s with
  | nil =>
    obtain rfl := Option.some.inj h
    exact ⟨rfl, rfl⟩
  | cons seg rest ih =>
    rw [ackUnacked] at h
    split_ifs at h
    · obtain ⟨u, hu, h⟩ := Option.bind_eq_some_iff.1 h
      exact ⟨(ih h).1.trans (freeAcked_steady hu).1, (ih h).2.trans (freeAcked_steady hu).2⟩
    · obtain rfl := Option.some.inj h
      exact ⟨rfl, rfl⟩

theorem ackUnsent_steady {ackno : SeqNum} {q : List TcpSeg} (h : ackUnsent ackno q s = some t) :
    t.pace = s.pace ∧ t.watch = s.watch := by
  induction q generalizing s with
  | nil =>
    obtain rfl := Option.some.inj h
    exact ⟨rfl, rfl⟩
  | cons seg rest ih =>
    rw [ackUnsent] at h
    by_cases hacked : SeqBetween ackno seg.endSeq s.sndNxt
    · rw [if_pos hacked] at h
      obtain ⟨u, hu, h⟩ := Option.bind_eq_some_iff.1 h
      exact ⟨(ih h).1.trans (freeAcked_steady hu).1, (ih h).2.trans (freeAcked_steady hu).2⟩
    · rw [if_neg hacked] at h
      obtain rfl := Option.some.inj h
      exact ⟨rfl, rfl⟩

/-- The window grows from where fast retransmission, if there was one, has left it. -/
theorem countAcked_grows (s : Pcb) (ackno : SeqNum) :
    ∃ v : Pcb, s.countAcked ackno = v.growCwnd ∧ Measures s v ∧ v.pace = { s.pace with
      infr := false, cwnd := if s.infr then s.ssthresh else s.cwnd, nrtx := 0,
      rto := toS16 (s.sa / 8 + s.sv) } := by
  refine ⟨_, rfl, ?_⟩
  cases hinfr : s.infr
  · exact ⟨⟨rfl, rfl, rfl, rfl, Or.inl rfl⟩, by simp [pace, hinfr]⟩
  · exact ⟨⟨rfl, rfl, rfl, rfl, Or.inl rfl⟩, rfl⟩

theorem newAck_paced {ackno : SeqNum} (h : s.newAck ackno = some t) :
    Edits s₀ (.input g env) s.pace t.pace ∧ Measures s t := by
  obtain ⟨u, hu, rfl⟩ := Option.map_eq_some_iff.1 h
  obtain ⟨hpace, hwatch⟩ := ackUnacked_steady hu
  obtain ⟨v, hv, hmeasures, hvpace⟩ := s.countAcked_grows ackno
  have hedit : Edit s₀ (.input g env) s.pace v.pace := by
    rw [hvpace]
    exact Edit.newAck s.pace g env
  have hgrow : Edits s₀ (.input g env) v.pace v.growCwnd.pace := growCwnd_paced
  refine ⟨(Relation.ReflTransGen.single hedit).trans (hgrow.trans (Edits.of_eq ?_)), ?_⟩
  · exact hpace.trans (congrArg Pcb.pace hv)
  · have hacked : Measures (s.countAcked ackno) u := .of_eq hpace hwatch
    refine (hmeasures.trans growCwnd_measures).trans ?_
    rw [← hv]
    exact ⟨hacked.sa, hacked.sv, hacked.rtseq, hacked.ticks, hacked.rttest⟩

theorem estimateRtt_paced (hmeasures : Measures s₀ s) (hack : g.ack = true) (hheard : s₀.Heard g) :
    Edits s₀ (.input g env) s.pace (s.estimateRtt g.ackno).pace := by
  rw [estimateRtt]
  by_cases hsample : s.rttest ≠ 0 ∧ SeqLt s.rtseq g.ackno
  · have hrttest : s.rttest = s₀.rttest := hmeasures.rttest.resolve_right hsample.1
    have hsamples : s₀.Samples g := ⟨hheard, hack, hrttest ▸ hsample.1, hmeasures.rtseq ▸ hsample.2⟩
    have hedit : Edit s₀ (.input g env) s.pace _ := Edit.sample s.pace g env hsamples hmeasures.sa hmeasures.sv
    rw [if_pos hsample]
    rw [← hrttest, ← hmeasures.ticks] at hedit
    exact .single hedit
  · rw [if_neg hsample]

theorem receiveAck_paced (h : s.receiveAck g = some t) (hack : g.ack = true)
    (hthird : s.ThirdDuplicate g → s.unacked ≠ [] → s₀.Resends g) (hpace : s.nrtx = s₀.nrtx)
    (hmeasures : Measures s₀ s) (hheard : s₀.Heard g) : Edits s₀ (.input g env) s.pace t.pace := by
  rw [receiveAck] at h
  obtain ⟨u, hu, h⟩ := Option.bind_eq_some_iff.1 h
  obtain ⟨v, hv, rfl⟩ := Option.map_eq_some_iff.1 h
  obtain ⟨hsame, hwatch⟩ := updateWindow_steady (s := s) g
  obtain ⟨hvpace, hvwatch⟩ := ackUnsent_steady hv
  have hwindow : Measures s (s.updateWindow g) := .of_eq hsame hwatch
  have hkept : (s.updateWindow g).rtime = s.rtime ∧ (s.updateWindow g).dupacks = s.dupacks ∧
      (s.updateWindow g).unacked = s.unacked := by
    rw [updateWindow]
    split_ifs <;> exact ⟨rfl, rfl, rfl⟩
  have hacked : Edits s₀ (.input g env) s.pace u.pace ∧ Measures s u := by
    split_ifs at hu with hold hnew
    · obtain rfl := Option.some.inj hu
      have hdup : Edits s₀ (.input g env) (s.updateWindow g).pace
          ((s.updateWindow g).duplicateAck g (BitVec.ofNat 32 s.sndWnd + s.sndWl2)).pace ∧ _ :=
        duplicateAck_paced
          (fun hlen hedge hrtime hlast hdupacks hinfr hne ↦ by
            refine hthird ⟨hack, ?_, hlen, hedge, hkept.1 ▸ hrtime, hkept.2.1 ▸ hdupacks, ?_⟩ (hkept.2.2 ▸ hne)
            · exact (hlast.symm.trans (congrArg Watch.lastack hwatch))
            · exact (congrArg Pace.infr hsame).symm.trans hinfr)
          ((congrArg Pace.nrtx hsame).trans hpace)
      rw [hsame] at hdup
      exact ⟨hdup.1, hwindow.trans hdup.2⟩
    · have hnewAck : Edits s₀ (.input g env) (s.updateWindow g).pace _ ∧ _ := newAck_paced hu
      rw [hsame] at hnewAck
      exact ⟨hnewAck.1, hwindow.trans hnewAck.2⟩
    · obtain rfl := Option.some.inj hu
      exact ⟨.of_eq hsame, hwindow.trans ⟨rfl, rfl, rfl, rfl, Or.inl rfl⟩⟩
  have hestimate : Edits s₀ (.input g env) v.pace _ :=
    estimateRtt_paced (hmeasures.trans (hacked.2.trans (.of_eq hvpace hvwatch))) hack hheard
  rw [hvpace] at hestimate
  exact hacked.1.trans hestimate

theorem tcpReceive_paced {alloc ack : Bool} {r : Pcb × Received} (h : s.tcpReceive g alloc ack = some r)
    (hthird : s.ThirdDuplicate g → s.unacked ≠ [] → s₀.Resends g) (hpace : s.nrtx = s₀.nrtx)
    (hmeasures : Measures s₀ s) (hheard : s₀.Heard g) : Edits s₀ (.input g env) s.pace r.1.pace := by
  obtain ⟨u, hu, hr⟩ := tcpReceive_cases h
  have hdata : Steady true u r.1 := receiveData_steady hr
  rw [hdata.pace]
  rcases hu with ⟨hack, hu⟩ | ⟨-, rfl⟩
  · exact receiveAck_paced hu hack hthird hpace hmeasures hheard
  · exact .refl

/-! ### `tcp_process` -/

theorem tcpParseopt_paced (s : Pcb) (g : InSeg) (env : InEnv) :
    ∃ mss, s.tcpParseopt g = { s with mss := mss } ∧ Edits s (.input g env) s.pace (s.tcpParseopt g).pace := by
  have hmss : ∀ m, 1 ≤ (if tcpMss < m ∨ m = 0 then tcpMss else m) ∧
      (if tcpMss < m ∨ m = 0 then tcpMss else m) ≤ tcpMss := by
    intro m
    have h1 : tcpMss = 536 := rfl
    split_ifs <;> omega
  rw [tcpParseopt]
  split
  · exact ⟨s.mss, rfl, .refl⟩
  · exact ⟨_, rfl, .single (Edit.option s.pace g env _ (hmss _))⟩

/-- The condition of a retransmission does not go by the maximum segment size. -/
theorem thirdDuplicate_mss (mss : ℕ) : { s with mss := mss }.ThirdDuplicate g ↔ s.ThirdDuplicate g := by
  have hwindow : ({ s with mss := mss }.updateWindow g).sndWl2 = (s.updateWindow g).sndWl2 ∧
      ({ s with mss := mss }.updateWindow g).sndWnd = (s.updateWindow g).sndWnd := by
    rw [updateWindow, updateWindow]
    dsimp only
    split_ifs <;> exact ⟨rfl, rfl⟩
  rw [ThirdDuplicate, ThirdDuplicate, hwindow.1, hwindow.2]

theorem connected_paced (h : s.connected g env = some t) : Edits s₀ (.input g env) s.pace t.pace := by
  rw [connected] at h
  split at h
  · cases h
  · next seg rest hunacked =>
    by_cases hack : g.ackno = seg.seqno + 1
    · rw [if_pos hack] at h
      by_cases hlen : 0 < s.sndQueuelen
      · rw [if_pos hlen] at h
        obtain ⟨u, hu, rfl⟩ := Option.map_eq_some_iff.1 h
        have hsteady : Steady true (s.synAcked g env.mtu rest) u := appCalls_steady hu
        have hedit : Edit s₀ (.input g env) s.pace (s.synAcked g env.mtu rest).pace :=
          Edit.connect s.pace g env (if rest = [] then s.nrtx else 0) (ite_eq_or_eq ..)
        refine (Relation.ReflTransGen.single hedit).trans (Edits.of_eq ?_)
        rw [← hsteady.pace]
        split_ifs <;> rfl
      · rw [if_neg hlen] at h
        cases h
    · rw [if_neg hack] at h
      obtain rfl := Option.some.inj h
      exact .refl

theorem accepted_paced {r : Pcb × InResult} (h : s.accepted g env = some r)
    (hnew : SeqBetween g.ackno (s.lastack + 1) s.sndNxt) (hnrtx : s.nrtx = s₀.nrtx) (hs : Measures s₀ s)
    (hheard : s₀.Heard g) : Edits s₀ (.input g env) s.pace r.1.pace := by
  obtain ⟨u, hu, h⟩ := Option.bind_eq_some_iff.1 h
  have hsteady : Steady true { s with state := .established } u := appCalls_steady hu
  have hpace : u.pace = s.pace := hsteady.pace
  have hwatch : u.watch = s.watch := hsteady.watch rfl
  by_cases hresult : env.result ≠ .ok
  · rw [if_pos hresult] at h
    obtain rfl := Option.some.inj h
    refine Edits.of_eq ?_
    dsimp only
    split_ifs
    · exact hpace
    · have hremove : Steady true u _ := tcpPcbRemove_steady true env.ack
      exact hremove.pace.trans hpace
  · rw [if_neg hresult] at h
    obtain ⟨v, hv, rfl⟩ := Option.map_eq_some_iff.1 h
    have hreceive : Edits s₀ (.input g env) u.pace v.1.pace := by
      refine tcpReceive_paced hv (fun hthird ↦ ?_) ((congrArg Pace.nrtx hpace).trans hnrtx)
        (hs.trans (.of_eq hpace hwatch)) hheard
      -- an acknowledgement that is new is no duplicate
      have hlast : g.ackno = s.lastack := hthird.2.1.trans (congrArg Watch.lastack hwatch)
      rw [hlast, SeqBetween, seqGeq_iff] at hnew
      bv_omega
    rw [hpace] at hreceive
    refine hreceive.tail ?_
    have hedit : Edit s₀ (.input g env) v.1.pace _ := Edit.accept v.1.pace g env
      (if u.cwnd = 1 then toU16 (v.1.mss * 2) else v.1.mss) (ite_eq_or_eq ..)
    dsimp only
    by_cases hfin : v.2.gotFin = true
    · rw [if_pos hfin]
      exact hedit
    · rw [if_neg hfin]
      exact hedit

theorem enterTimeWait_steady (input : Bool) : Steady input s s.enterTimeWait := by
  have hpurge : Steady input s s.tcpPcbPurge := tcpPcbPurge_steady
  exact ⟨hpurge.pace, hpurge.watch⟩

/-- In most states `tcp_receive` is called first, and what follows it leaves the pace alone. -/
theorem processState_receives {r : Pcb × InResult} (h : s.processState g env = some r)
    (hsync : s.state.synchronized = true) (hwait : s.state ≠ .timeWait) :
    ∃ v, s.tcpReceive g env.alloc env.ack = some v ∧ r.1.pace = v.1.pace := by
  have henter : ∀ v : Pcb, v.enterTimeWait.pace = v.pace := fun v ↦ (enterTimeWait_steady true).pace
  rw [processState] at h
  rcases hstate : s.state <;> rw [hstate] at h hsync
  case closed | listen | synSent | synRcvd => cases hsync
  case timeWait => exact absurd hstate hwait
  case closeWait | established =>
    obtain ⟨v, hv, rfl⟩ := Option.map_eq_some_iff.1 h
    refine ⟨v, hv, ?_⟩
    dsimp only
    split_ifs <;> rfl
  case finWait1 =>
    obtain ⟨v, hv, rfl⟩ := Option.map_eq_some_iff.1 h
    refine ⟨v, hv, ?_⟩
    dsimp only
    split_ifs
    · rw [henter]
      rfl
    all_goals rfl
  case finWait2 =>
    obtain ⟨v, hv, rfl⟩ := Option.map_eq_some_iff.1 h
    refine ⟨v, hv, ?_⟩
    dsimp only
    split_ifs
    · rw [henter]
      rfl
    · rfl
  case closing =>
    obtain ⟨v, hv, rfl⟩ := Option.map_eq_some_iff.1 h
    refine ⟨v, hv, ?_⟩
    dsimp only
    split_ifs
    · rw [henter]
    · rfl
  case lastAck =>
    obtain ⟨v, hv, rfl⟩ := Option.map_eq_some_iff.1 h
    exact ⟨v, hv, rfl⟩

/-- **The switch over the states.** -/
theorem processState_paced {r : Pcb × InResult} {mss : ℕ} (h : s.processState g env = some r)
    (hs : s = { s₀ with mss := mss }) (hrst : g.rst = false)
    (hsyn : g.syn = true → s₀.state = .synSent ∨ s₀.state = .synRcvd) :
    Edits s₀ (.input g env) s.pace r.1.pace := by
  have hmeasures : Measures s₀ s := by
    rw [hs]
    exact ⟨rfl, rfl, rfl, rfl, Or.inl rfl⟩
  have hnrtx : s.nrtx = s₀.nrtx := by rw [hs]
  by_cases hreceives : s.state.synchronized = true ∧ s.state ≠ .timeWait
  · obtain ⟨hsync, hwait⟩ := hreceives
    obtain ⟨v, hv, hpace⟩ := processState_receives h hsync hwait
    rw [hpace]
    rw [hs] at hsync
    have hplain : g.syn = false := by
      by_contra hg
      rcases hsyn (Bool.eq_true_of_not_eq_false hg) with hst | hst <;> rw [hst] at hsync <;> cases hsync
    refine tcpReceive_paced hv (fun hthird hne ↦ ?_) hnrtx hmeasures ⟨hrst, Or.inl ⟨hsync, hplain⟩⟩
    rw [hs] at hthird hne
    exact ⟨hrst, hne, Or.inr ⟨hsync, (thirdDuplicate_mss mss).1 hthird⟩⟩
  rw [processState] at h
  rcases hstate : s.state <;> rw [hstate] at h hreceives
  case closed | listen | timeWait =>
    obtain rfl := Option.some.inj h
    exact .refl
  case synSent =>
    dsimp only at h
    split_ifs at h
    · obtain ⟨u, hu, rfl⟩ := Option.map_eq_some_iff.1 h
      exact connected_paced hu
    · obtain rfl := Option.some.inj h
      exact .refl
  case synRcvd =>
    dsimp only at h
    split_ifs at h with hack hnew hdup
    · refine accepted_paced h hnew hnrtx hmeasures ⟨hrst, Or.inr ?_⟩
      rw [hs] at hstate hnew
      exact ⟨hstate, hnew⟩
    · obtain rfl := Option.some.inj h
      exact .refl
    · obtain rfl := Option.some.inj h
      rcases tcpRexmit_pace (s := s) with ⟨heq, -⟩ | ⟨heq, hne⟩
      · exact .of_eq heq
      · refine (Relation.ReflTransGen.single (Edit.resend s.pace g env ?_ hnrtx)).trans (Edits.of_eq heq)
        rw [hs] at hstate hdup hne
        exact ⟨hrst, hne, Or.inl ⟨hstate, Bool.eq_false_of_not_eq_true hack, hdup⟩⟩
    · obtain rfl := Option.some.inj h
      exact .refl
  all_goals exact absurd ⟨rfl, by decide⟩ hreceives

theorem tcpProcess_paced {r : Pcb × InResult} (h : s.tcpProcess g env = some r) :
    Edits s (.input g env) s.pace r.1.pace := by
  rw [tcpProcess] at h
  by_cases hrst : g.rst = true
  · rw [if_pos hrst] at h
    obtain rfl := Option.some.inj h
    dsimp only
    split_ifs <;> exact .refl
  rw [if_neg hrst] at h
  split_ifs at h with hsyn
  · obtain rfl := Option.some.inj h
    exact .refl
  · obtain ⟨mss, hopt, hedits⟩ := s.tcpParseopt_paced g env
    refine hedits.trans (processState_paced h hopt (Bool.eq_false_of_not_eq_true hrst) fun hg ↦ ?_)
    by_contra hstate
    rw [not_or] at hstate
    exact hsyn ⟨hg, hstate⟩

/-! ### The slow timer -/

theorem tcpRexmitRto_pace (alloc : Bool) (h : s.unacked ≠ []) :
    (s.tcpRexmitRto alloc).pace = { s.pace with nrtx := (s.nrtx + 1) % 2 ^ 8 } := by
  rw [tcpRexmitRto, if_neg h]
  dsimp only
  rw [tcpOutput_pace]
  rfl

theorem slowtmrRexmit_pace (tick : TickEnv) (hgive : s.givesUp = false) :
    s.TimesOut ∧ (s.slowtmrRexmit tick).pace =
        s.pace.backOff (decide (s.state = .synSent)) (min s.cwnd s.sndWnd / 2) ∨
      ¬s.TimesOut ∧ (s.slowtmrRexmit tick).pace = s.pace := by
  rw [slowtmrRexmit]
  by_cases hpersist : 0 < s.persistBackoff
  · rw [if_pos hpersist]
    refine Or.inr ⟨fun h ↦ by have := h.2.1; omega, ?_⟩
    refine iteInduction (motive := fun u : Pcb ↦ u.pace = s.pace) (fun _ ↦ ?_) fun _ ↦ rfl
    exact tcpZeroWindowProbe_pace _ _
  · rw [if_neg hpersist]
    have htimer : (if 0 ≤ s.rtime then { s with rtime := toS16 (s.rtime + 1) } else s : Pcb) =
        { s with rtime := if 0 ≤ s.rtime then toS16 (s.rtime + 1) else s.rtime } := by
      split_ifs <;> rfl
    rw [htimer]
    dsimp only
    by_cases hdue : s.unacked ≠ [] ∧ s.rto ≤ if 0 ≤ s.rtime then toS16 (s.rtime + 1) else s.rtime
    · rw [if_pos hdue]
      refine Or.inl ⟨⟨hgive, by omega, hdue⟩, ?_⟩
      refine (tcpRexmitRto_pace tick.alloc ?_).trans ?_
      · exact hdue.1
      · show Pace.mk .. = Pace.mk ..
        simp only [decide_eq_true_eq]
        rfl
    · rw [if_neg hdue]
      exact Or.inr ⟨fun h ↦ hdue h.2.2, rfl⟩

/-- **A tick** is a back-off if the timer has run out, and changes nothing otherwise. -/
theorem tcpSlowtmr_pace (tick : TickEnv) :
    s.TimesOut ∧ (s.tcpSlowtmr tick).pace =
        s.pace.backOff (decide (s.state = .synSent)) (min s.cwnd s.sndWnd / 2) ∨
      ¬s.TimesOut ∧ (s.tcpSlowtmr tick).pace = s.pace := by
  have hrest : ∀ (u : Pcb) (b : Bool), (let s := if tick.keepalive then u.tcpKeepalive tick.alloc else u
      let s := if tick.dropOoseq then { s with ooseq := [] } else s
      if b then { s.tcpPcbPurge with state := .closed } else s : Pcb).pace = u.pace := by
    intro u b
    have hkeepalive : (if tick.keepalive then u.tcpKeepalive tick.alloc else u).pace = u.pace := by
      split_ifs
      · exact tcpKeepalive_pace tick.alloc
      · rfl
    dsimp only
    refine Eq.trans ?_ hkeepalive
    generalize (if tick.keepalive then u.tcpKeepalive tick.alloc else u) = v
    have hdrop : (if tick.dropOoseq then { v with ooseq := [] } else v).pace = v.pace := by
      split_ifs <;> rfl
    refine Eq.trans ?_ hdrop
    generalize (if tick.dropOoseq then { v with ooseq := [] } else v) = w
    have hpurge : Steady true w w.tcpPcbPurge := tcpPcbPurge_steady
    split_ifs
    · exact hpurge.pace
    · rfl
  have hgives : ({ s with ticks := s.ticks + 1 } : Pcb).givesUp = s.givesUp := rfl
  rw [tcpSlowtmr]
  dsimp only
  rw [hrest, hgives]
  cases hgive : s.givesUp
  · exact slowtmrRexmit_pace (s := { s with ticks := s.ticks + 1 }) tick hgive
  · refine Or.inr ⟨fun h ↦ ?_, rfl⟩
    rw [h.1] at hgive
    cases hgive

end Pcb

/-! ### Steps -/

namespace Conn

open Pace (Edit Edits)
open Pcb (Steady)

variable {c c' : Conn} {l : Label}

theorem reportFin_pace : c.reportFin.pcb.pace = c.pcb.pace := by
  rw [reportFin]
  dsimp only
  split_ifs <;> rfl

theorem input_paced {g : InSeg} {env : InEnv} (h : c.input g env = some c') :
    Edits c.pcb (.input g env) c.pcb.pace c'.pcb.pace := by
  rw [input] at h
  split_ifs at h
  · obtain rfl := Option.some.inj h
    exact .refl
  · obtain ⟨r, hr, rfl⟩ := Option.map_eq_some_iff.1 h
    have hprocess := Pcb.tcpProcess_paced hr
    have hremove : (r.1.tcpPcbRemove true env.ack).pace = r.1.pace := by
      have hsteady : Steady true r.1 _ := Pcb.tcpPcbRemove_steady true env.ack
      exact hsteady.pace
    refine hprocess.trans (Edits.of_eq ?_)
    split_ifs
    · exact hremove
    · exact hremove
    · rfl
    · rfl

theorem inputDone_pace {ack : Bool} (h : c.inputDone ack = some c') : c'.pcb.pace = c.pcb.pace := by
  rw [inputDone] at h
  split at h
  · cases h
  split_ifs at h with hdata hfin
  · obtain rfl := Option.some.inj h
    refine (Pcb.tcpOutput_pace false ack).trans ?_
    split
    · rfl
    · exact reportFin_pace
  · obtain rfl := Option.some.inj h
    exact Pcb.tcpOutput_pace false ack

theorem refused_pace {accept : Bool} (h : c.refused accept = some c') : c'.pcb.pace = c.pcb.pace := by
  rw [refused] at h
  split at h
  · cases h
  split_ifs at h
  · obtain rfl := Option.some.inj h
    exact reportFin_pace
  · obtain rfl := Option.some.inj h
    rfl
  · obtain rfl := Option.some.inj h
    rfl

/-- **A step edits the pace**: an arriving segment and a tick do, and nothing else does. -/
theorem step_paced (h : Conn.step l c = some c') : Edits c.pcb l c.pcb.pace c'.pcb.pace := by
  cases l with
  | call a =>
    obtain ⟨s, hs, rfl⟩ := Option.map_eq_some_iff.1 h
    exact Edits.of_eq (Pcb.appCall_steady hs).pace
  | input g env =>
    rw [step] at h
    split_ifs at h
    · obtain rfl := Option.some.inj h
      refine Edits.of_eq ?_
      dsimp only
      rw [Pcb.tcpTimewaitInput]
      split_ifs
      · rfl
      · rfl
      · exact Pcb.tcpOutput_pace false env.ack
      · rfl
    · exact input_paced h
  | recv accept ack =>
    refine Edits.of_eq ?_
    rw [step, recv] at h
    split at h
    · cases h
    split_ifs at h <;> obtain rfl := Option.some.inj h
    · have hremove : Steady true c.pcb _ := Pcb.tcpPcbRemove_steady true ack
      exact hremove.pace
    · rfl
    · rfl
  | inputDone ack => exact Edits.of_eq (inputDone_pace h)
  | refused accept =>
    rw [step] at h
    split_ifs at h
    exact Edits.of_eq (refused_pace h)
  | fasttmr ack =>
    refine Edits.of_eq ?_
    rw [step] at h
    split_ifs at h <;> obtain rfl := Option.some.inj h
    · exact Pcb.tcpOutput_pace (s := { c.pcb with ackNow := true }) false ack
    · rfl
  | slowtmr env =>
    rw [step] at h
    split_ifs at h
    obtain rfl := Option.some.inj h
    rcases Pcb.tcpSlowtmr_pace (s := c.pcb) env with ⟨hdue, heq⟩ | ⟨-, heq⟩
    · dsimp only
      rw [heq]
      exact .single (Edit.backOff env hdue)
    · exact Edits.of_eq heq

/-- The control blocks on which the API and `tcp_receive` are called have a pace that comes from edits as
well. -/
theorem Entered.paced {s : Pcb} (h : Entered c l s) : Edits c.pcb l c.pcb.pace s.pace := by
  cases h with
  | call => exact .refl
  | input g env =>
    obtain ⟨-, -, hedits⟩ := c.pcb.tcpParseopt_paced g env
    exact hedits
  | accepted g env cs rest s hstate hnew hcalls hs =>
    obtain ⟨-, -, hedits⟩ := c.pcb.tcpParseopt_paced g env
    have hsteady : Steady true { c.pcb.tcpParseopt g with state := .established } s := Pcb.appCalls_steady hs
    exact hedits.trans (Edits.of_eq hsteady.pace)
  | connected g env seg u cs rest s hstate hunacked hack hlen hcalls hs =>
    obtain ⟨-, -, hedits⟩ := c.pcb.tcpParseopt_paced g env
    have hsteady : Steady true ((c.pcb.tcpParseopt g).synAcked g env.mtu u) s := Pcb.appCalls_steady hs
    have hedit : Edit c.pcb (.input g env) (c.pcb.tcpParseopt g).pace
        ((c.pcb.tcpParseopt g).synAcked g env.mtu u).pace :=
      Edit.connect (c.pcb.tcpParseopt g).pace g env (if u = [] then (c.pcb.tcpParseopt g).nrtx else 0)
        (ite_eq_or_eq ..)
    exact (hedits.tail hedit).trans (Edits.of_eq hsteady.pace)

end Conn

end Lwip.Tcp
