import LwipPoc.Tcp.Timeouts

/-!
# The congestion window

The congestion window and its threshold are written in seven places, from each other, from the window of
the peer and from a maximum segment size that the peer chooses. In every state of a run the segment size
is between 1 and `TCP_MSS` and the congestion window is not zero, so that congestion avoidance divides
by it. The threshold may be zero **until the timer or a fast retransmission has set it**: a listening
connection takes it from the window of the peer's `SYN`.
-/

namespace Lwip.Tcp

open Pace (Edit Edits)

/-- An MTU that leaves room for the headers, or none at all. -/
def MtuOk (mtu : ℕ) : Prop := mtu = 0 ∨ 40 < mtu ∧ mtu < 2 ^ 16

instance (mtu : ℕ) : Decidable (MtuOk mtu) := inferInstanceAs (Decidable (_ ∨ _))

theorem tcpEffSendMss_pos {mtu mss : ℕ} (hmtu : MtuOk mtu) (hmss : 1 ≤ mss) :
    1 ≤ tcpEffSendMss mtu mss ∧ tcpEffSendMss mtu mss ≤ mss := by
  rw [tcpEffSendMss]
  split_ifs with hzero
  · obtain ⟨hlt, hle⟩ := hmtu.resolve_left hzero
    have hroom : toU16 (mtu + 2 ^ 16 - 40) = mtu - 40 := by
      rw [toU16]
      omega
    omega
  · exact ⟨hmss, le_rfl⟩

namespace Pace

/-- What holds of a pace. -/
structure Sound (p : Pace) : Prop where
  mss_pos : 1 ≤ p.mss
  mss_le : p.mss ≤ tcpMss
  cwnd_pos : 1 ≤ p.cwnd
  cwnd_lt : p.cwnd < 2 ^ 16
  /-- The threshold becomes the window when fast retransmission ends. -/
  ssthresh_pos : p.infr = true → 1 ≤ p.ssthresh
  ssthresh_lt : p.ssthresh < 2 ^ 16

end Pace

namespace Conn

/-- **The domain**: the interface to the peer has an MTU above 40, or none. -/
def MtusOk : Label → Conn → Prop
  | .input _ env, _ => MtuOk env.mtu
  | _, _ => True

instance : (l : Label) → (c : Conn) → Decidable (MtusOk l c)
  | .input _ env, _ => inferInstanceAs (Decidable (MtuOk env.mtu))
  | .call _, _ | .recv .., _ | .inputDone _, _ | .refused _, _ | .fasttmr _, _ | .slowtmr _, _ => .isTrue trivial

variable {c c' : Conn} {l : Label}

theorem edit_sound {p q : Pace} (h : Edit c.pcb l p q) (hmtu : MtusOk l c) (hp : p.Sound) : q.Sound := by
  have h1 : tcpMss = 536 := rfl
  obtain ⟨hmss, hmssLe, hcwnd, hcwndLt, hinfr, hssthresh⟩ := hp
  cases h with
  | option _ g env mss hrange => exact ⟨hrange.1, hrange.2, hcwnd, hcwndLt, hinfr, hssthresh⟩
  | connect _ g env nrtx hnrtx =>
    have heff := tcpEffSendMss_pos hmtu hmss
    refine ⟨heff.1, heff.2.trans hmssLe, ?_, ?_, fun _ ↦ ?_, ?_⟩ <;> dsimp only [toU16]
    · split_ifs <;> omega
    · split_ifs <;> omega
    · omega
    · omega
  | accept _ g env cwnd hcwnd' =>
    refine ⟨hmss, hmssLe, ?_, ?_, hinfr, hssthresh⟩ <;>
      rcases hcwnd' with rfl | rfl <;> dsimp only [toU16] <;> omega
  | resend => exact ⟨hmss, hmssLe, hcwnd, hcwndLt, hinfr, hssthresh⟩
  | restart _ g env t ht =>
    have hroom : t + 3 * p.mss < 2 ^ 16 := by omega
    refine ⟨hmss, hmssLe, ?_, ?_, fun _ ↦ ?_, ?_⟩ <;> dsimp only [Pace.restart, toU16] <;> split_ifs <;> omega
  | grow _ g env cwnd hle hlt => exact ⟨hmss, hmssLe, by dsimp only; omega, hlt, hinfr, hssthresh⟩
  | newAck _ g env =>
    refine ⟨hmss, hmssLe, ?_, ?_, nofun, hssthresh⟩ <;> dsimp only <;> split_ifs with hoff
    · exact hinfr hoff
    · exact hcwnd
    · exact hssthresh
    · exact hcwndLt
  | sample => exact ⟨hmss, hmssLe, hcwnd, hcwndLt, hinfr, hssthresh⟩
  | backOff env hdue =>
    have hhalf : min c.pcb.cwnd c.pcb.sndWnd / 2 ≤ c.pcb.cwnd := by
      have := Nat.min_le_left c.pcb.cwnd c.pcb.sndWnd
      omega
    have hp : c.pcb.pace.mss = c.pcb.mss ∧ c.pcb.pace.cwnd = c.pcb.cwnd := ⟨rfl, rfl⟩
    refine ⟨hmss, hmssLe, hmss, ?_, fun _ ↦ ?_, ?_⟩ <;> dsimp only [Pace.backOff, toU16]
    · omega
    · split_ifs <;> omega
    · split_ifs <;> omega

/-- An edit that leaves the threshold, or sets it to a positive value. -/
theorem edit_ssthresh {p q : Pace} (h : Edit c.pcb l p q) (hmtu : MtusOk l c) (hp : p.Sound)
    (hpos : 1 ≤ p.ssthresh) : 1 ≤ q.ssthresh := by
  have h1 : tcpMss = 536 := rfl
  obtain ⟨hmss, hmssLe, -, -, -, -⟩ := hp
  cases h with
  | option | accept | resend | grow | newAck | sample => exact hpos
  | connect _ g env nrtx hnrtx =>
    have heff := tcpEffSendMss_pos hmtu hmss
    dsimp only [toU16]
    omega
  | restart _ g env t ht =>
    dsimp only [Pace.restart, toU16]
    split_ifs <;> omega
  | backOff env hdue =>
    dsimp only [Pace.backOff, toU16]
    split_ifs <;> omega

theorem edits_sound {p q : Pace} (h : Edits c.pcb l p q) (hmtu : MtusOk l c) (hp : p.Sound) : q.Sound := by
  induction h with
  | refl => exact hp
  | tail _ hedit ih => exact edit_sound hedit hmtu ih

theorem edits_ssthresh {p q : Pace} (h : Edits c.pcb l p q) (hmtu : MtusOk l c) (hp : p.Sound)
    (hpos : 1 ≤ p.ssthresh) : 1 ≤ q.ssthresh := by
  have hboth : q.Sound ∧ 1 ≤ q.ssthresh := by
    induction h with
    | refl => exact ⟨hp, hpos⟩
    | tail _ hedit ih => exact ⟨edit_sound hedit hmtu ih.1, edit_ssthresh hedit hmtu ih.1 ih.2⟩
  exact hboth.2

end Conn

/-! ### How a connection starts -/

/-- The control blocks with which a connection starts, over an interface with such an MTU. -/
inductive Pcb.StartsOver : Pcb → Prop
  | connecting (iss : SeqNum) (ticks : BitVec 32) (mtu : ℕ) (hmtu : MtuOk mtu) :
      StartsOver (Pcb.connecting iss ticks mtu)
  | accepting (iss : SeqNum) (ticks : BitVec 32) (g : InSeg) (mtu : ℕ) (hmtu : MtuOk mtu) :
      StartsOver (Pcb.accepting iss ticks g mtu)

theorem connecting_pace (iss : SeqNum) (ticks : BitVec 32) (mtu : ℕ) :
    (Pcb.connecting iss ticks mtu).pace =
      ⟨tcpEffSendMss mtu 536, false, 0, 6, 6, 0, 1, toU16 (tcpEffSendMss mtu 536 * 10)⟩ := rfl

theorem accepting_pace (iss : SeqNum) (ticks : BitVec 32) (g : InSeg) (mtu : ℕ) :
    ∃ mss, 1 ≤ mss ∧ mss ≤ tcpMss ∧ (Pcb.accepting iss ticks g mtu).pace =
      ⟨tcpEffSendMss mtu mss, false, 0, 6, 6, 0, 1, g.wnd⟩ := by
  have h1 : tcpMss = 536 := rfl
  rw [Pcb.accepting, Pcb.tcpParseopt]
  split
  · exact ⟨536, by omega, by omega, rfl⟩
  · next mss _ =>
    refine ⟨if tcpMss < mss ∨ mss = 0 then tcpMss else mss, ?_, ?_, rfl⟩ <;> split_ifs <;> omega

theorem Pcb.StartsOver.sound {s : Pcb} (h : s.StartsOver) : s.pace.Sound := by
  have h1 : tcpMss = 536 := rfl
  cases h with
  | connecting iss ticks mtu hmtu =>
    have heff : 1 ≤ tcpEffSendMss mtu 536 ∧ tcpEffSendMss mtu 536 ≤ 536 := tcpEffSendMss_pos hmtu (by decide)
    rw [connecting_pace]
    exact ⟨heff.1, heff.2.trans (by omega), le_rfl, by dsimp only; omega, nofun, by dsimp only [toU16]; omega⟩
  | accepting iss ticks g mtu hmtu =>
    obtain ⟨mss, hmss, hle, hpace⟩ := accepting_pace iss ticks g mtu
    have heff := tcpEffSendMss_pos hmtu hmss
    rw [hpace]
    exact ⟨heff.1, heff.2.trans hle, le_rfl, by dsimp only; omega, nofun, g.wnd_lt⟩

/-! ### Retransmission sets the threshold -/

namespace Pcb

variable {s t : Pcb} {g : InSeg} {env : InEnv}

theorem tcpRexmitFast_ssthresh (hne : s.unacked ≠ []) (hoff : s.infr = false) (hmss : 1 ≤ s.mss)
    (hle : s.mss ≤ tcpMss) : 1 ≤ s.tcpRexmitFast.ssthresh := by
  have h1 : tcpMss = 536 := rfl
  have hkept : s.tcpRexmit.mss = s.mss := by
    rcases tcpRexmit_pace (s := s) with ⟨heq, -⟩ | ⟨heq, -⟩
    · exact congrArg Pace.mss heq
    · exact congrArg Pace.mss heq
  rw [tcpRexmitFast, if_pos ⟨hne, hoff⟩]
  dsimp only
  rw [hkept, toU16]
  generalize (if s.tcpRexmit.sndWnd < s.tcpRexmit.cwnd then s.tcpRexmit.sndWnd / 2
    else s.tcpRexmit.cwnd / 2) = x
  split_ifs <;> omega

theorem receiveAck_third (h : s.receiveAck g = some t) (hthird : s.ThirdDuplicate g) (hne : s.unacked ≠ [])
    (hmss : 1 ≤ s.mss) (hle : s.mss ≤ tcpMss) : 1 ≤ t.ssthresh := by
  obtain ⟨-, hlast, hlen, hedge, hrtime, hdupacks, hinfr⟩ := hthird
  obtain ⟨hpace, hwatch⟩ := updateWindow_steady (s := s) g
  have hkept : (s.updateWindow g).rtime = s.rtime ∧ (s.updateWindow g).dupacks = s.dupacks ∧
      (s.updateWindow g).unacked = s.unacked := by
    rw [updateWindow]
    split_ifs <;> exact ⟨rfl, rfl, rfl⟩
  have hlast' : (s.updateWindow g).lastack = g.ackno := (congrArg Watch.lastack hwatch).trans hlast.symm
  rw [receiveAck] at h
  obtain ⟨u, hu, h⟩ := Option.bind_eq_some_iff.1 h
  obtain ⟨v, hv, rfl⟩ := Option.map_eq_some_iff.1 h
  have hold : SeqLeq g.ackno (s.updateWindow g).lastack := by
    rw [hlast', seqLeq_iff]
    exact Or.inl rfl
  rw [if_pos hold] at hu
  obtain rfl := Option.some.inj hu
  -- the third duplicate starts the fast retransmission
  have hdup : 1 ≤ ((s.updateWindow g).duplicateAck g (BitVec.ofNat 32 s.sndWnd + s.sndWl2)).ssthresh := by
    have hcount : { s.updateWindow g with acked := 0 }.countDupack =
        { s.updateWindow g with acked := 0, dupacks := 3 } := by
      rw [countDupack]
      dsimp only
      rw [hkept.2.1, hdupacks]
      rfl
    rw [duplicateAck]
    dsimp only
    rw [if_pos ⟨hlen, hedge, hkept.1 ▸ hrtime, hlast'⟩, hcount, if_neg (by exact lt_irrefl 3), if_pos rfl]
    refine tcpRexmitFast_ssthresh (by exact hkept.2.2 ▸ hne) ?_ ?_ ?_
    · exact (congrArg Pace.infr hpace).trans hinfr
    · exact hmss.trans_eq (congrArg Pace.mss hpace).symm
    · exact (congrArg Pace.mss hpace).trans_le hle
  have hsame : (v.estimateRtt g.ackno).ssthresh = v.ssthresh := by
    rw [estimateRtt]
    split_ifs <;> rfl
  rw [hsame, show v.ssthresh = _ from congrArg Pace.ssthresh (ackUnsent_steady hv).1]
  exact hdup

end Pcb

namespace Conn

variable {c c' : Conn} {l : Label}

/-- **A retransmission**: the timer runs out; or a segment makes `tcp_rexmit` send again, which is no
duplicate of the peer's `SYN`. -/
def Retransmits : Label → Conn → Prop
  | .slowtmr _, c => c.pcb.TimesOut
  | .input g _, c => c.pcb.state ≠ .timeWait ∧ c.pcb.Resends g ∧ ¬c.pcb.DuplicateSyn g
  | _, _ => False

instance : (l : Label) → (c : Conn) → Decidable (Retransmits l c)
  | .slowtmr _, c => inferInstanceAs (Decidable c.pcb.TimesOut)
  | .input g _, c => inferInstanceAs (Decidable (c.pcb.state ≠ .timeWait ∧ c.pcb.Resends g ∧ ¬c.pcb.DuplicateSyn g))
  | .call _, _ | .recv .., _ | .inputDone _, _ | .refused _, _ | .fasttmr _, _ => .isFalse not_false

theorem step_retransmits (h : Conn.step l c = some c') (hmtu : MtusOk l c) (hret : Retransmits l c)
    (hc : c.pcb.pace.Sound) : 1 ≤ c'.pcb.ssthresh := by
  have h1 : tcpMss = 536 := rfl
  have hmss : 1 ≤ c.pcb.mss ∧ c.pcb.mss ≤ tcpMss := ⟨hc.mss_pos, hc.mss_le⟩
  cases l with
  | call | recv | inputDone | refused | fasttmr => exact hret.elim
  | slowtmr env =>
    rw [step] at h
    split_ifs at h
    obtain rfl := Option.some.inj h
    rcases Pcb.tcpSlowtmr_pace (s := c.pcb) env with ⟨-, heq⟩ | ⟨hnot, -⟩
    · rw [show (c.pcb.tcpSlowtmr env).ssthresh = _ from congrArg Pace.ssthresh heq]
      have hpace : c.pcb.pace.mss = c.pcb.mss := rfl
      dsimp only [Pace.backOff, toU16]
      split_ifs <;> omega
    · exact absurd hret hnot
  | input g env =>
    obtain ⟨hwait, ⟨hrst, hne, hresends⟩, hdup⟩ := hret
    obtain ⟨hsync, hthird⟩ := hresends.resolve_left hdup
    have hplain : g.syn = false ∧ g.tcplen = 0 := by
      have hlen := hthird.2.2.1
      refine ⟨?_, hlen⟩
      by_contra hsyn
      rw [InSeg.tcplen, Bool.eq_true_of_not_eq_false hsyn] at hlen
      exact absurd hlen (Nat.succ_ne_zero _)
    rw [step] at h
    split_ifs at h
    rw [input, if_neg (by omega)] at h
    obtain ⟨r, hr, rfl⟩ := Option.map_eq_some_iff.1 h
    rw [Pcb.tcpProcess, if_neg (by rw [hrst]; exact Bool.false_ne_true),
      if_neg (by rw [hplain.1]; exact fun h ↦ Bool.false_ne_true h.1)] at hr
    obtain ⟨mss, hopt, hedits⟩ := c.pcb.tcpParseopt_paced g env
    have hsound : (c.pcb.tcpParseopt g).pace.Sound := edits_sound hedits hmtu hc
    rw [hopt] at hr hsound
    obtain ⟨v, hv, hpace⟩ := Pcb.processState_receives hr hsync hwait
    have hpos : 1 ≤ v.1.ssthresh := by
      obtain ⟨u, hu, hdata⟩ := Pcb.tcpReceive_cases hv
      have hsteady : Pcb.Steady true u v.1 := Pcb.receiveData_steady hdata
      rw [show v.1.ssthresh = u.ssthresh from congrArg Pace.ssthresh hsteady.pace]
      rcases hu with ⟨-, hu⟩ | ⟨hnot, -⟩
      · exact Pcb.receiveAck_third hu ((Pcb.thirdDuplicate_mss mss).2 hthird) hne hsound.mss_pos hsound.mss_le
      · rw [hthird.1] at hnot
        cases hnot
    have hremove : (r.1.tcpPcbRemove true env.ack).pace = r.1.pace := by
      have hsteady : Pcb.Steady true r.1 _ := Pcb.tcpPcbRemove_steady true env.ack
      exact hsteady.pace
    have hr1 : r.1.ssthresh = v.1.ssthresh := congrArg Pace.ssthresh hpace
    have hr2 : (r.1.tcpPcbRemove true env.ack).ssthresh = r.1.ssthresh := congrArg Pace.ssthresh hremove
    split_ifs <;> dsimp only <;> omega

theorem step_sound (h : Conn.step l c = some c') (hmtu : MtusOk l c) (hc : c.pcb.pace.Sound) :
    c'.pcb.pace.Sound :=
  edits_sound (step_paced h) hmtu hc

/-- **The congestion window** in every state of a run. What slow start and congestion avoidance begin with,
when data is acknowledged in a step, is not zero; no update by them makes the window smaller; and after a
retransmission the threshold is not zero any more. -/
theorem cwnd_kept {s : Pcb} (hs : s.StartsOver) {ls : List Label}
    (h : runLabels (guardStep MtusOk Conn.step) ls (Conn.start s) = some c) :
    (1 ≤ c.pcb.mss ∧ c.pcb.mss ≤ tcpMss) ∧ 1 ≤ c.pcb.cwnd ∧
      (∀ l s, MtusOk l c → Entered c l s → ∀ g ackno, ∃ v : Pcb,
        (s.updateWindow g).countAcked ackno = v.growCwnd ∧
          v.cwnd = (if s.infr then s.ssthresh else s.cwnd) ∧ 1 ≤ v.cwnd) ∧
      (∀ s : Pcb, s.cwnd ≤ s.inflateCwnd.cwnd ∧ s.cwnd ≤ s.growCwnd.cwnd) ∧
      ∀ l c₁ ms c₂, MtusOk l c → Retransmits l c → Conn.step l c = some c₁ →
        runLabels (guardStep MtusOk Conn.step) ms c₁ = some c₂ → 1 ≤ c₂.pcb.ssthresh := by
  have hsound : c.pcb.pace.Sound := by
    refine runLabels_invariant (I := fun c ↦ c.pcb.pace.Sound) hs.sound (fun l c c' hc hl ↦ ?_) h
    obtain ⟨hmtu, hl⟩ := guardStep_eq_some.1 hl
    exact step_sound hl hmtu hc
  refine ⟨⟨hsound.mss_pos, hsound.mss_le⟩, hsound.cwnd_pos, fun l s hmtu hentered g ackno ↦ ?_, fun s ↦ ?_,
    fun l c₁ ms c₂ hmtu hret hl hms ↦ ?_⟩
  · have hs : s.pace.Sound := edits_sound hentered.paced hmtu hsound
    obtain ⟨v, hv, -, hpace⟩ := (s.updateWindow g).countAcked_grows ackno
    have hwindow : (s.updateWindow g).pace = s.pace := (Pcb.updateWindow_steady g).1
    have hcwnd : v.cwnd = if s.infr then s.ssthresh else s.cwnd := by
      rw [show v.cwnd = _ from congrArg Pace.cwnd hpace]
      show (if (s.updateWindow g).pace.infr then (s.updateWindow g).pace.ssthresh
        else (s.updateWindow g).pace.cwnd) = _
      rw [hwindow]
      rfl
    refine ⟨v, hv, hcwnd, ?_⟩
    rw [hcwnd]
    split_ifs with hinfr
    · exact hs.ssthresh_pos hinfr
    · exact hs.cwnd_pos
  · have hinflate : s.cwnd ≤ s.inflateCwnd.cwnd := by
      rw [Pcb.inflateCwnd]
      split_ifs with hlt
      · exact hlt.le
      · exact le_rfl
    refine ⟨hinflate, ?_⟩
    rw [Pcb.growCwnd]
    split_ifs
    · exact hinflate
    · dsimp only
      split_ifs with hlt
      · exact hlt.le
      · exact le_rfl
  · have hkept : c₂.pcb.pace.Sound ∧ 1 ≤ c₂.pcb.ssthresh := by
      refine runLabels_invariant (I := fun c ↦ c.pcb.pace.Sound ∧ 1 ≤ c.pcb.ssthresh)
        ⟨step_sound hl hmtu hsound, step_retransmits hl hmtu hret hsound⟩ (fun l c c' hc hl ↦ ?_) hms
      obtain ⟨hmtu, hl⟩ := guardStep_eq_some.1 hl
      exact ⟨step_sound hl hmtu hc.1, edits_ssthresh (step_paced hl) hmtu hc.1 hc.2⟩
    exact hkept.2

/-- Over Ethernet: a connection is accepted, and a byte that is written is sent again. -/
theorem cwnd_kept_accepted :
    ∃ c, runLabels (guardStep MtusOk Conn.step)
      (fedLabels ++ [.call (.write [0] true false fun _ ↦ true), .call (.output true)] ++
        List.replicate 5 (.slowtmr ⟨true, 0, false, false, false⟩))
      (Conn.start (Pcb.accepting 1000 0
        ⟨0, 0, 1000, true, false, false, false, none, [], by decide, Nat.zero_le _⟩ 1500)) = some c ∧
      1 ≤ c.pcb.cwnd ∧ Retransmits (.slowtmr ⟨true, 0, false, false, false⟩) c ∧
      ∀ c', Conn.step (.slowtmr ⟨true, 0, false, false, false⟩) c = some c' → 1 ≤ c'.pcb.ssthresh := by
  refine exists_run_of_observe (fun c ↦ decide (Retransmits (.slowtmr ⟨true, 0, false, false, false⟩) c)) true
    (by decide) fun c hrun hobs ↦ ?_
  obtain ⟨-, hcwnd, -, -, hafter⟩ := cwnd_kept (Pcb.StartsOver.accepting 1000 0 _ 1500 (by decide)) hrun
  have hret : Retransmits (.slowtmr ⟨true, 0, false, false, false⟩) c := of_decide_eq_true hobs
  exact ⟨hcwnd, hret, fun c' hl ↦ hafter (.slowtmr _) c' [] c' trivial hret hl rfl⟩

/-- **A threshold of zero**: the `SYN` of the peer has announced no window. It is repeated, and the `SYN|ACK`
is sent again; the threshold is still zero. -/
theorem ssthresh_zero_resent :
    ∃ s ls c l c', s.StartsOver ∧ runLabels (guardStep MtusOk Conn.step) ls (Conn.start s) = some c ∧
      MtusOk l c ∧ Conn.step l c = some c' ∧ c.pcb.nrtx = 0 ∧ c'.pcb.nrtx = 1 ∧ c'.pcb.ssthresh = 0 := by
  let syn : InSeg := ⟨0, 0, 0, true, false, false, false, none, [], by decide, Nat.zero_le _⟩
  let again : Label := .input syn ⟨true, true, 1500, [], .ok⟩
  have hrun : ∃ c, runLabels (guardStep MtusOk Conn.step) [.call (.output true)]
      (Conn.start (Pcb.accepting 1000 0 syn 1500)) = some c ∧
      MtusOk again c ∧ ∃ c', Conn.step again c = some c' ∧ c.pcb.nrtx = 0 ∧ c'.pcb.nrtx = 1 ∧ c'.pcb.ssthresh = 0 := by
    refine exists_run_of_observe (fun c ↦ (c.pcb.nrtx, (Conn.step again c).map fun c ↦ (c.pcb.nrtx, c.pcb.ssthresh)))
      (0, some (1, 0)) (by decide) fun c _ hobs ↦ ?_
    obtain ⟨hnrtx, hobs⟩ := Prod.mk.inj hobs
    obtain ⟨c', hl, hobs⟩ := Option.map_eq_some_iff.1 hobs
    obtain ⟨hnrtx', hssthresh⟩ := Prod.mk.inj hobs
    exact ⟨Or.inr ⟨by decide, by decide⟩, c', hl, hnrtx, hnrtx', hssthresh⟩
  obtain ⟨c, hrun, hmtu, c', hl, hobs⟩ := hrun
  exact ⟨_, _, c, again, c', Pcb.StartsOver.accepting 1000 0 syn 1500 (by decide), hrun, hmtu, hl, hobs⟩

end Conn

end Lwip.Tcp
