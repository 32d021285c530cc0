import LwipPoc.Netif.Ppp.FsmRuns

/-!
# What the negotiation cannot break

Whatever happens to a machine, its options are changed by the callbacks only, and what it does is to call them and to send
packets. So what no callback and no packet breaks holds after every step (`Stable.step`).
-/

namespace Lwip.Netif.Ppp

variable {σ : Type*} {cb : FsmCallbacks σ} {f f' : Fsm σ}

/-- The callbacks that are recorded, with what is recorded. -/
def FsmCallbacks.told (cb : FsmCallbacks σ) : List (FsmAct × Option (σ → σ)) :=
  [(.up, cb.up), (.down, cb.down), (.starting, cb.starting), (.finished, cb.finished)]

/-- Something that holds of the options and of what was done, and that no callback and no packet breaks. -/
structure Stable (cb : FsmCallbacks σ) (P : σ → List FsmAct → Prop) : Prop where
  resetci : ∀ resetci ∈ cb.resetci, ∀ ci acts, P ci acts → P (resetci ci) acts
  cilen : ∀ cilen ∈ cb.cilen, ∀ ci acts, P ci acts → P (cilen ci).2 acts
  addci : ∀ addci ∈ cb.addci, ∀ ci n acts, P ci acts → P (addci ci n).2 acts
  ackci : ∀ ackci ∈ cb.ackci, ∀ s ci inp acts, P ci acts → P (ackci s ci inp).2 acts
  nakci : ∀ nakci ∈ cb.nakci, ∀ s ci inp acts, P ci acts → P (nakci s ci inp).2 acts
  rejci : ∀ rejci ∈ cb.rejci, ∀ s ci inp acts, P ci acts → P (rejci s ci inp).2 acts
  reqci : ∀ reqci ∈ cb.reqci, ∀ ci inp rej i acts, P ci acts → P (reqci ci inp rej).2.2 (acts ++ [.sdata (reqci ci inp rej).1 i
    ((reqci ci inp rej).2.1.take ((cb.peerMru (reqci ci inp rej).2.2).toNat - headerlen))])
  call : ∀ a ∈ cb.told, ∀ ci acts, P ci acts → P (a.2.elim ci (· ci)) (acts ++ [a.1])
  retransmit : ∀ retransmit ∈ cb.retransmit, ∀ ci acts, P ci acts → P (retransmit ci) acts
  extcode : ∀ extcode ∈ cb.extcode, ∀ ci code i data acts, P ci acts → P (extcode ci code i data).2 acts
  sdata : ∀ ci code i (data : List (BitVec 8)) acts, code ≠ confnak → P ci acts →
    P ci (acts ++ [.sdata code i (data.take ((cb.peerMru ci).toNat - headerlen))])

namespace Stable

variable {P : σ → List FsmAct → Prop}

theorem down (hp : Stable cb P) {ci : σ} {acts : List FsmAct} (h : P ci acts) :
    P (cb.down.elim ci (· ci)) (acts ++ [.down]) := hp.call (.down, cb.down) (by simp [FsmCallbacks.told]) ci acts h

theorem up (hp : Stable cb P) {ci : σ} {acts : List FsmAct} (h : P ci acts) :
    P (cb.up.elim ci (· ci)) (acts ++ [.up]) := hp.call (.up, cb.up) (by simp [FsmCallbacks.told]) ci acts h

theorem starting (hp : Stable cb P) {ci : σ} {acts : List FsmAct} (h : P ci acts) :
    P (cb.starting.elim ci (· ci)) (acts ++ [.starting]) :=
  hp.call (.starting, cb.starting) (by simp [FsmCallbacks.told]) ci acts h

theorem finished (hp : Stable cb P) {ci : σ} {acts : List FsmAct} (h : P ci acts) :
    P (cb.finished.elim ci (· ci)) (acts ++ [.finished]) :=
  hp.call (.finished, cb.finished) (by simp [FsmCallbacks.told]) ci acts h

theorem requestCi (hp : Stable cb P) (h : P f.ci f.acts) : P (f.requestCi cb).2 f.acts := by
  rw [Fsm.requestCi]
  split
  next cilen addci hcilen haddci => exact hp.addci addci haddci _ _ _ (hp.cilen cilen hcilen _ _ h)
  next => exact h

theorem fsmSconfreq (hp : Stable cb P) (h : P f.ci f.acts) (retransmit : Bool) :
    P (f.fsmSconfreq cb retransmit).ci (f.fsmSconfreq cb retransmit).acts := by
  have hresetci : P (cb.resetci.elim f.ci (· f.ci)) f.acts := by
    cases hresetci : cb.resetci with
    | none => exact h
    | some resetci => exact hp.resetci resetci hresetci f.ci f.acts h
  rw [Fsm.fsmSconfreq]
  split_ifs
  · exact hp.sdata _ _ _ _ _ (by decide) (hp.requestCi h)
  · exact hp.sdata _ _ _ _ _ (by decide) (hp.requestCi hresetci)
  · exact hp.sdata _ _ _ _ _ (by decide) (hp.requestCi h)
  · exact hp.sdata _ _ _ _ _ (by decide) (hp.requestCi hresetci)

theorem fsmLowerup (hp : Stable cb P) (h : P f.ci f.acts) : P (f.fsmLowerup cb).ci (f.fsmLowerup cb).acts := by
  rw [Fsm.fsmLowerup]
  cases f.state
  case starting =>
    dsimp only
    split_ifs
    · exact h
    · exact hp.fsmSconfreq h false
  all_goals exact h

theorem fsmLowerdown (hp : Stable cb P) (h : P f.ci f.acts) : P (f.fsmLowerdown cb).ci (f.fsmLowerdown cb).acts := by
  rw [Fsm.fsmLowerdown]
  cases f.state
  case stopped => exact hp.starting h
  case opened => exact hp.down h
  all_goals exact h

theorem reopen (hp : Stable cb P) (h : P f.ci f.acts) : P (f.reopen cb).ci (f.reopen cb).acts := by
  rw [Fsm.reopen]
  split_ifs
  · exact hp.fsmLowerup (hp.fsmLowerdown h)
  · exact h

theorem fsmOpen (hp : Stable cb P) (h : P f.ci f.acts) : P (f.fsmOpen cb).ci (f.fsmOpen cb).acts := by
  rw [Fsm.fsmOpen]
  cases f.state
  case initial => exact hp.starting h
  case closed =>
    dsimp only
    split_ifs
    · exact h
    · exact hp.fsmSconfreq h false
  case closing => exact hp.reopen (f := f.enter .stopping) h
  case stopped | opened => exact hp.reopen h
  all_goals exact h

theorem fsmClose (hp : Stable cb P) (h : P f.ci f.acts) (reason : List (BitVec 8)) :
    P (f.fsmClose cb reason).ci (f.fsmClose cb reason).acts := by
  rw [Fsm.fsmClose]
  cases hs : f.state <;> dsimp only
  case opened => rw [if_pos rfl]; exact hp.sdata _ _ _ _ _ (by decide) (hp.down h)
  case reqsent | ackrcvd | acksent => rw [if_neg (by decide)]; exact hp.sdata _ _ _ _ _ (by decide) h
  all_goals exact h

theorem fsmTimeout (hp : Stable cb P) (h : P f.ci f.acts) : P (f.fsmTimeout cb).ci (f.fsmTimeout cb).acts := by
  have hretransmit : P (cb.retransmit.elim f.ci (· f.ci)) f.acts := by
    cases hretransmit : cb.retransmit with
    | none => exact h
    | some retransmit => exact hp.retransmit retransmit hretransmit f.ci f.acts h
  rw [Fsm.fsmTimeout]
  cases f.state <;> dsimp only
  case closing | stopping =>
    split_ifs
    · exact hp.finished h
    · exact hp.finished h
    · exact hp.sdata _ _ _ _ _ (by decide) h
  case reqsent | ackrcvd | acksent =>
    split_ifs
    · exact h
    · exact hp.finished h
    · refine hp.fsmSconfreq ?_ true
      exact hretransmit
    · refine hp.fsmSconfreq ?_ true
      exact hretransmit
  all_goals exact h

/-- What follows an answer that is sent. -/
theorem respond (hp : Stable cb P) (code i : BitVec 8) (inp : List (BitVec 8))
    (h : P f.ci (f.fsmSdata cb code i inp).acts) : P (f.respond cb code i inp).ci (f.respond cb code i inp).acts := by
  rw [Fsm.respond]
  dsimp only
  split_ifs
  · exact hp.up h
  all_goals exact h

theorem answer (hp : Stable cb P) (h : P f.ci f.acts) (i : BitVec 8) (inp : List (BitVec 8)) :
    P (f.answer cb i inp).ci (f.answer cb i inp).acts := by
  rw [Fsm.answer]
  split
  next reqci hreqci =>
    refine hp.respond _ i _ ?_
    exact hp.reqci reqci hreqci f.ci inp _ i f.acts h
  next =>
    refine hp.respond _ i inp (hp.sdata f.ci _ i inp f.acts ?_ h)
    split_ifs <;> decide

/-- The layer above is told that the link is down, and a new request is sent. -/
theorem again (hp : Stable cb P) (h : P f.ci f.acts) :
    P ((f.call .down cb.down).fsmSconfreq cb false).ci ((f.call .down cb.down).fsmSconfreq cb false).acts := by
  refine hp.fsmSconfreq ?_ false
  exact hp.down h

theorem fsmRconfreq (hp : Stable cb P) (h : P f.ci f.acts) (i : BitVec 8) (inp : List (BitVec 8)) :
    P (f.fsmRconfreq cb i inp).ci (f.fsmRconfreq cb i inp).acts := by
  rw [Fsm.fsmRconfreq]
  cases f.state
  case closed => exact hp.sdata _ _ _ _ _ (by decide) h
  case closing | stopping => exact h
  case opened => exact hp.answer (hp.again h) i inp
  case stopped =>
    refine hp.answer ?_ i inp
    exact hp.fsmSconfreq h false
  all_goals exact hp.answer h i inp

theorem fsmRconfack (hp : Stable cb P) (h : P f.ci f.acts) (i : BitVec 8) (inp : List (BitVec 8)) :
    P (f.fsmRconfack cb i inp).ci (f.fsmRconfack cb i inp).acts := by
  have hackci : P (cb.ackci.elim (decide (inp = []), f.ci) fun ackci ↦ ackci f.state f.ci inp).2 f.acts := by
    cases hackci : cb.ackci with
    | none => exact h
    | some ackci => exact hp.ackci ackci hackci f.state f.ci inp f.acts h
  revert hackci
  rw [Fsm.fsmRconfack]
  rcases cb.ackci.elim (decide (inp = []), f.ci) fun ackci ↦ ackci f.state f.ci inp with ⟨good, ci⟩
  intro hackci
  split_ifs
  · exact h
  cases good
  · exact hackci
  cases f.state
  case closed | stopped => exact hp.sdata _ _ _ _ _ (by decide) hackci
  case acksent => exact hp.up hackci
  case ackrcvd =>
    refine hp.fsmSconfreq ?_ false
    exact hackci
  case opened =>
    refine hp.again ?_
    exact hackci
  all_goals exact hackci

theorem fsmRconfnakrej (hp : Stable cb P) (h : P f.ci f.acts) {proc : Option (LinkState → σ → List (BitVec 8) → ℤ × σ)}
    (hproc : ∀ p ∈ proc, ∀ s ci inp acts, P ci acts → P (p s ci inp).2 acts) (i : BitVec 8) (inp : List (BitVec 8)) :
    P (f.fsmRconfnakrej cb proc i inp).ci (f.fsmRconfnakrej cb proc i inp).acts := by
  have hci : P (proc.elim (0, f.ci) fun proc ↦ proc f.state f.ci inp).2 f.acts := by
    cases proc with
    | none => exact h
    | some p => exact hproc p rfl f.state f.ci inp f.acts h
  revert hci
  rw [Fsm.fsmRconfnakrej]
  rcases proc.elim (0, f.ci) fun proc ↦ proc f.state f.ci inp with ⟨ret, ci⟩
  intro hci
  split_ifs
  · exact h
  rcases eq_or_ne ret 0 with rfl | hne
  · exact hci
  dsimp only
  rw [if_neg hne]
  cases f.state
  case closed | stopped => exact hp.sdata _ _ _ _ _ (by decide) hci
  case reqsent | acksent =>
    dsimp only
    split_ifs
    · exact hci
    · refine hp.fsmSconfreq ?_ false
      exact hci
  case ackrcvd =>
    refine hp.fsmSconfreq ?_ false
    exact hci
  case opened =>
    refine hp.again ?_
    exact hci
  all_goals exact hci

theorem fsmRtermreq (hp : Stable cb P) (h : P f.ci f.acts) (i : BitVec 8) :
    P (f.fsmRtermreq cb i).ci (f.fsmRtermreq cb i).acts := by
  rw [Fsm.fsmRtermreq]
  cases f.state
  case opened => exact hp.sdata _ _ _ _ _ (by decide) (hp.down h)
  all_goals exact hp.sdata _ _ _ _ _ (by decide) h

theorem fsmRtermack (hp : Stable cb P) (h : P f.ci f.acts) : P (f.fsmRtermack cb).ci (f.fsmRtermack cb).acts := by
  rw [Fsm.fsmRtermack]
  cases f.state
  case closing | stopping => exact hp.finished h
  case opened => exact hp.again h
  all_goals exact h

theorem fsmRcoderej (h : P f.ci f.acts) (inp : List (BitVec 8)) : P (f.fsmRcoderej inp).ci (f.fsmRcoderej inp).acts := by
  rw [Fsm.fsmRcoderej]
  split_ifs <;> exact h

theorem fsmProtreject (hp : Stable cb P) (h : P f.ci f.acts) :
    P (f.fsmProtreject cb).ci (f.fsmProtreject cb).acts := by
  rw [Fsm.fsmProtreject]
  cases f.state
  case initial | starting => exact h
  case opened => exact hp.sdata _ _ _ _ _ (by decide) (hp.down h)
  all_goals exact hp.finished h

theorem dispatch (hp : Stable cb P) (h : P f.ci f.acts) (code i : BitVec 8) (inp packet : List (BitVec 8)) :
    P (f.dispatch cb code i inp packet).ci (f.dispatch cb code i inp packet).acts := by
  have hextcode : P (cb.extcode.elim (false, f.ci) fun extcode ↦ extcode f.ci code i inp).2 f.acts := by
    cases hextcode : cb.extcode with
    | none => exact h
    | some extcode => exact hp.extcode extcode hextcode f.ci code i inp f.acts h
  rw [Fsm.dispatch]
  split_ifs
  · exact hp.fsmRconfreq h i inp
  · exact hp.fsmRconfack h i inp
  · exact hp.fsmRconfnakrej h hp.nakci i inp
  · exact hp.fsmRconfnakrej h hp.rejci i inp
  · exact hp.fsmRtermreq h i
  · exact hp.fsmRtermack h
  · exact fsmRcoderej h inp
  · dsimp only
    split_ifs
    · exact hextcode
    · exact hp.sdata _ _ _ _ _ (by decide) hextcode

/-- **What no callback and no packet breaks holds after every step.** -/
theorem step (hp : Stable cb P) (h : P f.ci f.acts) {e : FsmEvent} (he : fsmStep cb e f = some f') : P f'.ci f'.acts := by
  cases e with
  | timeout =>
    rw [fsmStep] at he
    split_ifs at he
    cases he
    exact hp.fsmTimeout (f := f.disarm) h
  | lowerup => cases he; exact hp.fsmLowerup h
  | lowerdown => cases he; exact hp.fsmLowerdown h
  | opens => cases he; exact hp.fsmOpen h
  | close reason => cases he; exact hp.fsmClose h reason
  | protreject => cases he; exact hp.fsmProtreject h
  | input inpacket =>
    cases he
    rw [Fsm.fsmInput]
    cases Fsm.header inpacket with
    | none => exact h
    | some p =>
      dsimp only
      split_ifs
      · exact h
      · exact hp.dispatch h _ _ _ _

end Stable

end Lwip.Netif.Ppp
