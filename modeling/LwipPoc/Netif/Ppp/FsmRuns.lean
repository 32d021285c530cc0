import LwipPoc.Netif.Ppp.Fsm
import Mathlib.Data.Option.Basic
import Mathlib.Tactic.SplitIfs

/-!
# Runs of the negotiation

**The timer and the calls of `up` and `down`** (`fsm_link_sound`): as long as no open link is sent a terminate
acknowledgement, the timer runs in the states that wait for the peer and in no others, and the layer above is told that
the link is up when it opens and that it is down when it ends, in turn. That acknowledgement, after which the state stays
open, breaks it, and nothing else does.
-/

namespace Lwip.Netif.Ppp

open Fsm

variable {σ : Type*} {cb : FsmCallbacks σ} {f f' : Fsm σ}

/-- The states in which the timer runs. -/
def LinkState.timed : LinkState → Bool
  | .closing | .stopping | .reqsent | .ackrcvd | .acksent => true
  | _ => false

/-- The layer above is told something: that a link is up which was down, or the other way round. -/
def linkAct (isUp : Bool) : FsmAct → Option Bool
  | .up => if isUp then none else some true
  | .down => if isUp then some false else none
  | _ => some isUp

attribute [local simp] LinkState.timed linkAct

/-- What the layer above knows after some acts, if it was told of changes only. -/
def linkAfter (acts : List FsmAct) : Option Bool := acts.foldlM linkAct false

theorem linkAfter_concat (acts : List FsmAct) (a : FsmAct) :
    linkAfter (acts ++ [a]) = (linkAfter acts).bind (linkAct · a) := by
  simp [linkAfter, List.foldlM_append]

namespace Fsm

/-! ### What the parts do -/

@[simp] theorem enter_state (s : LinkState) : (f.enter s).state = s := rfl

@[simp] theorem enter_timer (s : LinkState) : (f.enter s).timer = f.timer := rfl

@[simp] theorem enter_acts (s : LinkState) : (f.enter s).acts = f.acts := rfl

@[simp] theorem arm_state : f.arm.state = f.state := rfl

@[simp] theorem arm_timer : f.arm.timer = true := rfl

@[simp] theorem arm_acts : f.arm.acts = f.acts := rfl

@[simp] theorem disarm_state : f.disarm.state = f.state := rfl

@[simp] theorem disarm_timer : f.disarm.timer = false := rfl

@[simp] theorem disarm_acts : f.disarm.acts = f.acts := rfl

@[simp] theorem call_state (a : FsmAct) (callback : Option (σ → σ)) : (f.call a callback).state = f.state := rfl

@[simp] theorem call_timer (a : FsmAct) (callback : Option (σ → σ)) : (f.call a callback).timer = f.timer := rfl

@[simp] theorem call_acts (a : FsmAct) (callback : Option (σ → σ)) : (f.call a callback).acts = f.acts ++ [a] := rfl

@[simp] theorem fsmSdata_state (code id : BitVec 8) (data : List (BitVec 8)) :
    (f.fsmSdata cb code id data).state = f.state := rfl

@[simp] theorem fsmSdata_timer (code id : BitVec 8) (data : List (BitVec 8)) :
    (f.fsmSdata cb code id data).timer = f.timer := rfl

@[simp] theorem fsmSdata_link (code id : BitVec 8) (data : List (BitVec 8)) :
    linkAfter (f.fsmSdata cb code id data).acts = linkAfter f.acts := by
  rw [fsmSdata, linkAfter_concat]
  exact Option.bind_fun_some _

@[simp] theorem fsmSconfreq_state (retransmit : Bool) : (f.fsmSconfreq cb retransmit).state = f.state := by
  simp only [fsmSconfreq]
  split_ifs <;> rfl

@[simp] theorem fsmSconfreq_timer (retransmit : Bool) : (f.fsmSconfreq cb retransmit).timer = true := rfl

@[simp] theorem fsmSconfreq_link (retransmit : Bool) :
    linkAfter (f.fsmSconfreq cb retransmit).acts = linkAfter f.acts := by
  rw [fsmSconfreq]
  split_ifs <;> exact fsmSdata_link _ _ _

@[simp] theorem terminate_state : (f.terminate cb).state = f.state := rfl

@[simp] theorem terminate_timer : (f.terminate cb).timer = true := rfl

@[simp] theorem terminate_link : linkAfter (f.terminate cb).acts = linkAfter f.acts := fsmSdata_link _ _ _

/-! ### What the steps keep -/

/-- The timer runs in the states that wait for the peer, and the layer above knows whether the link is open. -/
structure Steady (f : Fsm σ) : Prop where
  timer : f.timer = f.state.timed
  link : linkAfter f.acts = some (decide (f.state = .opened))

theorem steady_iff : f.Steady ↔ f.timer = f.state.timed ∧ linkAfter f.acts = some (decide (f.state = .opened)) :=
  ⟨fun h ↦ ⟨h.timer, h.link⟩, fun h ↦ ⟨h.1, h.2⟩⟩

theorem Steady.fsmLowerup (h : f.Steady) : (f.fsmLowerup cb).Steady := by
  obtain ⟨htimer, hlink⟩ := h
  rw [Fsm.fsmLowerup]
  cases hs : f.state <;> rw [hs] at htimer hlink <;> dsimp only
  case starting => split_ifs <;> simp [steady_iff, htimer, hlink]
  all_goals simp [steady_iff, htimer, hlink, hs]

theorem Steady.fsmLowerdown (h : f.Steady) : (f.fsmLowerdown cb).Steady := by
  obtain ⟨htimer, hlink⟩ := h
  rw [Fsm.fsmLowerdown]
  cases hs : f.state <;> rw [hs] at htimer hlink <;>
    simp [steady_iff, linkAfter_concat, htimer, hlink, hs]

theorem Steady.reopen (h : f.Steady) : (f.reopen cb).Steady := by
  rw [Fsm.reopen]
  split_ifs
  · exact h.fsmLowerdown.fsmLowerup
  · exact h

theorem Steady.fsmOpen (h : f.Steady) : (f.fsmOpen cb).Steady := by
  have ⟨htimer, hlink⟩ := h
  rw [Fsm.fsmOpen]
  cases hs : f.state <;> rw [hs] at htimer hlink <;> dsimp only
  case closed => split_ifs <;> simp [steady_iff, htimer, hlink]
  case closing => exact Steady.reopen (by simp [steady_iff, htimer, hlink])
  case stopped | opened => exact h.reopen
  all_goals simp [steady_iff, linkAfter_concat, htimer, hlink, hs]

theorem Steady.fsmClose (h : f.Steady) (reason : List (BitVec 8)) : (f.fsmClose cb reason).Steady := by
  obtain ⟨htimer, hlink⟩ := h
  rw [Fsm.fsmClose]
  cases hs : f.state <;> rw [hs] at htimer hlink <;>
    simp [steady_iff, linkAfter_concat, htimer, hlink]

theorem steady_fsmTimeout (htimer : f.timer = false)
    (hlink : linkAfter f.acts = some (decide (f.state = .opened))) : (f.fsmTimeout cb).Steady := by
  rw [fsmTimeout]
  cases hs : f.state <;> rw [hs] at hlink <;> dsimp only
  case closing | stopping =>
    split_ifs <;> simp_all [steady_iff, linkAfter_concat]
  case reqsent | ackrcvd | acksent =>
    split_ifs <;> simp_all [steady_iff, linkAfter_concat]
  all_goals simp [steady_iff, htimer, hlink, hs]

/-- The answer to a request, which is sent while the timer runs and the layer above holds the link to be down. -/
theorem steady_respond (htimer : f.timer = true) (hlink : linkAfter f.acts = some false) (code id : BitVec 8)
    (inp : List (BitVec 8)) : (f.respond cb code id inp).Steady := by
  rw [respond]
  dsimp only
  split_ifs <;> simp_all [steady_iff, linkAfter_concat, goUp]

theorem steady_answer (htimer : f.timer = true) (hlink : linkAfter f.acts = some false) (id : BitVec 8)
    (inp : List (BitVec 8)) : (f.answer cb id inp).Steady := by
  rw [answer]
  split
  · refine steady_respond ?_ ?_ _ id _
    · exact htimer
    · exact hlink
  · exact steady_respond htimer hlink _ id inp

theorem Steady.fsmRconfreq (h : f.Steady) (hup : f.state ≠ .initial ∧ f.state ≠ .starting) (id : BitVec 8)
    (inp : List (BitVec 8)) : (f.fsmRconfreq cb id inp).Steady := by
  obtain ⟨htimer, hlink⟩ := h
  rw [Fsm.fsmRconfreq]
  cases hs : f.state <;> rw [hs] at htimer hlink <;> dsimp only
  case initial | starting => exact absurd hs (by simp [hup])
  case closed | closing | stopping => simp [steady_iff, htimer, hlink, hs]
  case stopped => exact steady_answer rfl (by simp [hlink]) id inp
  case reqsent | ackrcvd | acksent => exact steady_answer htimer hlink id inp
  case opened => exact steady_answer rfl (by simp [linkAfter_concat, hlink]) id inp

theorem Steady.renegotiate (h : f.Steady) (hs : f.state = .opened) : (f.renegotiate cb).Steady := by
  obtain ⟨htimer, hlink⟩ := h
  rw [hs] at hlink
  simp [steady_iff, Fsm.renegotiate, linkAfter_concat, hlink]

theorem Steady.fsmRconfack (h : f.Steady) (id : BitVec 8) (inp : List (BitVec 8)) :
    (f.fsmRconfack cb id inp).Steady := by
  have ⟨htimer, hlink⟩ := h
  rw [Fsm.fsmRconfack]
  split_ifs with hid
  · exact h
  dsimp only
  split_ifs with hgood
  · exact ⟨htimer, hlink⟩
  cases hs : f.state <;> rw [hs] at htimer hlink
  case opened => exact Steady.renegotiate (by simp [steady_iff, htimer, hlink]) rfl
  all_goals simp [steady_iff, goUp, linkAfter_concat, htimer, hlink]

theorem Steady.fsmRconfnakrej (h : f.Steady) (proc : Option (LinkState → σ → List (BitVec 8) → ℤ × σ)) (id : BitVec 8)
    (inp : List (BitVec 8)) : (f.fsmRconfnakrej cb proc id inp).Steady := by
  have ⟨htimer, hlink⟩ := h
  rw [Fsm.fsmRconfnakrej]
  split_ifs with hid
  · exact h
  rcases proc.elim (0, f.ci) fun proc ↦ proc f.state f.ci inp with ⟨ret, ci⟩
  rcases eq_or_ne ret 0 with rfl | hne
  · exact ⟨htimer, hlink⟩
  dsimp only
  rw [if_neg hne]
  cases hs : f.state <;> rw [hs] at htimer hlink <;> dsimp only
  case reqsent | acksent => split_ifs <;> simp [steady_iff, hlink]
  case opened => exact Steady.renegotiate (by simp [steady_iff, htimer, hlink]) rfl
  all_goals simp [steady_iff, htimer, hlink]

theorem Steady.fsmRtermreq (h : f.Steady) (id : BitVec 8) : (f.fsmRtermreq cb id).Steady := by
  obtain ⟨htimer, hlink⟩ := h
  rw [Fsm.fsmRtermreq]
  cases hs : f.state <;> rw [hs] at htimer hlink <;>
    simp [steady_iff, linkAfter_concat, htimer, hlink, hs]

theorem Steady.fsmRtermack (h : f.Steady) (hopened : f.state ≠ .opened) : (f.fsmRtermack cb).Steady := by
  obtain ⟨htimer, hlink⟩ := h
  rw [Fsm.fsmRtermack]
  cases hs : f.state <;> rw [hs] at htimer hlink
  case opened => exact absurd hs hopened
  all_goals simp [steady_iff, linkAfter_concat, htimer, hlink, hs]

theorem Steady.fsmRcoderej (h : f.Steady) (inp : List (BitVec 8)) : (f.fsmRcoderej inp).Steady := by
  rw [Fsm.fsmRcoderej]
  split_ifs with hlen hs
  · exact h
  · exact ⟨by rw [enter_timer, h.timer, hs]; rfl, by rw [enter_acts, h.link, hs]; rfl⟩
  · exact h

theorem Steady.fsmProtreject (h : f.Steady) : (f.fsmProtreject cb).Steady := by
  obtain ⟨htimer, hlink⟩ := h
  rw [Fsm.fsmProtreject]
  cases hs : f.state <;> rw [hs] at htimer hlink <;>
    simp [steady_iff, linkAfter_concat, htimer, hlink, hs]

theorem Steady.dispatch (h : f.Steady) (hup : f.state ≠ .initial ∧ f.state ≠ .starting) {code : BitVec 8}
    (hack : ¬(f.state = .opened ∧ code = termack)) (id : BitVec 8) (inp packet : List (BitVec 8)) :
    (f.dispatch cb code id inp packet).Steady := by
  rw [Fsm.dispatch]
  split_ifs with hconfreq hconfack hconfnak hconfrej htermreq htermack hcoderej
  · exact h.fsmRconfreq hup id inp
  · exact h.fsmRconfack id inp
  · exact h.fsmRconfnakrej _ id inp
  · exact h.fsmRconfnakrej _ id inp
  · exact h.fsmRtermreq id
  · exact h.fsmRtermack fun hs ↦ hack ⟨hs, htermack⟩
  · exact h.fsmRcoderej inp
  · dsimp only
    split_ifs
    · exact ⟨h.timer, h.link⟩
    · exact ⟨h.timer, (fsmSdata_link _ _ _).trans h.link⟩

end Fsm

/-! ### The exception -/

/-- A terminate acknowledgement is read, and the link is open. -/
def TermackOpen : FsmEvent → Fsm σ → Prop
  | .input inpacket, f => f.state = .opened ∧ ∃ h ∈ header inpacket, h.1 = termack
  | _, _ => False

instance (e : FsmEvent) (f : Fsm σ) : Decidable (TermackOpen e f) := by
  cases e <;> simp only [TermackOpen] <;> infer_instance

namespace Fsm

theorem Steady.fsmInput (h : f.Steady) {inpacket : List (BitVec 8)} (hack : ¬TermackOpen (.input inpacket) f) :
    (f.fsmInput cb inpacket).Steady := by
  rw [Fsm.fsmInput]
  cases hheader : header inpacket with
  | none => exact h
  | some p =>
    dsimp only
    split_ifs with hdown
    · exact h
    · exact h.dispatch (not_or.1 hdown) (fun hopened ↦ hack ⟨hopened.1, p, hheader, hopened.2⟩) _ _ _

theorem Steady.step {e : FsmEvent} (h : f.Steady) (hack : ¬TermackOpen e f) (he : fsmStep cb e f = some f') :
    f'.Steady := by
  cases e with
  | timeout =>
    rw [fsmStep] at he
    split_ifs at he
    cases he
    exact steady_fsmTimeout rfl h.link
  | lowerup => cases he; exact h.fsmLowerup
  | lowerdown => cases he; exact h.fsmLowerdown
  | opens => cases he; exact h.fsmOpen
  | close reason => cases he; exact h.fsmClose reason
  | input inpacket => cases he; exact h.fsmInput hack
  | protreject => cases he; exact h.fsmProtreject

/-- After a terminate acknowledgement an open link is open, and the timer runs. -/
theorem not_steady_of_termackOpen {e : FsmEvent} (hack : TermackOpen e f) (he : fsmStep cb e f = some f') :
    f'.state = .opened ∧ f'.timer = true := by
  cases e with
  | input inpacket =>
    obtain ⟨hopened, ⟨code, id, inp, packet⟩, hheader, rfl⟩ := hack
    cases he
    rw [fsmInput, show header inpacket = _ from hheader]
    dsimp only
    rw [if_neg (by simp [hopened]), dispatch, if_neg (by decide), if_neg (by decide), if_neg (by decide),
      if_neg (by decide), if_neg (by decide), if_pos rfl, fsmRtermack, hopened]
    exact ⟨by simp [hopened], rfl⟩
  | _ => exact hack.elim

end Fsm

/-- **The timer and the calls of `up` and `down`.** In every run in which no open link is sent a terminate acknowledgement,
the timer runs in the states that wait for the peer and in no others, and the layer above is told of the changes of the
link: that it is up, and that it is down, in turn. A step more keeps this exactly if it is not such a packet. -/
theorem fsm_link_sound (cb : FsmCallbacks σ) (ci : σ) (passive restart silent : Bool) {es : List FsmEvent}
    (hrun : runLabels (guardStep (fun e f ↦ ¬TermackOpen e f) (fsmStep cb)) es
      { fsmInit ci with passive := passive, restart := restart, silent := silent } = some f) :
    f.timer = f.state.timed ∧ linkAfter f.acts = some (decide (f.state = .opened)) ∧
      ∀ e f', fsmStep cb e f = some f' →
        (f'.timer = f'.state.timed ∧ linkAfter f'.acts = some (decide (f'.state = .opened)) ↔ ¬TermackOpen e f) := by
  have hsteady : f.Steady := by
    refine runLabels_invariant (I := Fsm.Steady) ⟨rfl, rfl⟩ (fun e f f' hf he ↦ ?_) hrun
    obtain ⟨hack, he⟩ := guardStep_eq_some.1 he
    exact hf.step hack he
  refine ⟨hsteady.timer, hsteady.link, fun e f' he ↦ ⟨fun h hack ↦ ?_, fun hack ↦ ?_⟩⟩
  · obtain ⟨hopened, htimer⟩ := not_steady_of_termackOpen hack he
    rw [htimer, hopened] at h
    exact Bool.noConfusion h.1
  · exact steady_iff.1 (hsteady.step hack he)

/-- A link that opens: the peer acknowledges the request, and sends its own. -/
theorem fsm_link_sound_opened :
    ∃ f, runLabels (guardStep (fun e f ↦ ¬TermackOpen e f) (fsmStep bareCallbacks))
        [.opens, .lowerup, .input [2, 1, 0, 4], .input [1, 9, 0, 4]]
        { fsmInit () with passive := false, restart := false, silent := false } = some f ∧
      f.state = .opened ∧ f.timer = false ∧ linkAfter f.acts = some true := by
  refine exists_run_of_observe (fun f ↦ f.state) .opened (by decide) fun f hrun hobs ↦ ?_
  obtain ⟨htimer, hlink, -⟩ := fsm_link_sound bareCallbacks () false false false hrun
  have hopened : f.state = .opened := hobs
  rw [hopened] at htimer hlink
  exact ⟨hopened, htimer, hlink⟩

end Lwip.Netif.Ppp
