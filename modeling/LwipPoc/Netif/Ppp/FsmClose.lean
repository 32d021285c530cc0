import LwipPoc.Netif.Ppp.FsmRuns
import Mathlib.Data.List.Basic

/-!
# The end of a negotiation

**A link that is closed ends** (`fsm_close_ends`). A machine that was told to close waits for the acknowledgement of the
peer, and sends its terminate request again when the timer goes off. What the peer sends in the meantime, requests and
acknowledgements of any kind, cannot keep it from ending: it is answered or dropped, and the number of times the timer
goes off is bounded.
-/

namespace Lwip.Netif.Ppp

open Fsm

variable {σ : Type*} {cb : FsmCallbacks σ} {f f' : Fsm σ}

/-! ### What the peer can do -/

/-- The link is down for good, or will be when the peer agrees or the timer has gone off often enough. -/
def Ending (s : LinkState) : Prop := s = .closing ∨ s = .closed

namespace Fsm

/-- The machine does nothing, but may send a packet that is no terminate request. -/
structure Answers (f f' : Fsm σ) : Prop where
  state : f'.state = f.state
  timer : f'.timer = f.timer
  retransmits : f'.retransmits = f.retransmits
  acts : f'.acts = f.acts ∨ ∃ code id data, code ≠ termreq ∧ f'.acts = f.acts ++ [.sdata code id data]

/-- The link is closed, and the layer below is told that it is not needed. -/
structure Closes (f f' : Fsm σ) : Prop where
  state : f'.state = .closed
  timer : f'.timer = false
  acts : f'.acts = f.acts ++ [.finished]

theorem Answers.refl (f : Fsm σ) : Answers f f := ⟨rfl, rfl, rfl, .inl rfl⟩

theorem answers_fsmRconfreq (hs : Ending f.state) (id : BitVec 8) (inp : List (BitVec 8)) :
    Answers f (f.fsmRconfreq cb id inp) := by
  rw [fsmRconfreq]
  rcases hs with hs | hs <;> rw [hs]
  · exact .refl f
  · exact ⟨rfl, rfl, rfl, .inr ⟨_, _, _, by decide, rfl⟩⟩

theorem answers_fsmRconfack (hs : Ending f.state) (id : BitVec 8) (inp : List (BitVec 8)) :
    Answers f (f.fsmRconfack cb id inp) := by
  rw [fsmRconfack]
  split_ifs
  · exact .refl f
  dsimp only
  split_ifs
  · exact ⟨rfl, rfl, rfl, .inl rfl⟩
  rcases hs with hs | hs <;> rw [hs]
  · exact ⟨hs.symm, rfl, rfl, .inl rfl⟩
  · exact ⟨hs.symm, rfl, rfl, .inr ⟨_, _, _, by decide, rfl⟩⟩

theorem answers_fsmRconfnakrej (hs : Ending f.state) (proc : Option (LinkState → σ → List (BitVec 8) → ℤ × σ))
    (id : BitVec 8) (inp : List (BitVec 8)) : Answers f (f.fsmRconfnakrej cb proc id inp) := by
  rw [fsmRconfnakrej]
  split_ifs
  · exact .refl f
  rcases proc.elim (0, f.ci) fun proc ↦ proc f.state f.ci inp with ⟨ret, ci⟩
  rcases eq_or_ne ret 0 with rfl | hne
  · exact ⟨rfl, rfl, rfl, .inl rfl⟩
  dsimp only
  rw [if_neg hne]
  rcases hs with hs | hs <;> rw [hs]
  · exact ⟨hs.symm, rfl, rfl, .inl rfl⟩
  · exact ⟨hs.symm, rfl, rfl, .inr ⟨_, _, _, by decide, rfl⟩⟩

/-- A packet ends a link that is being closed, or changes nothing. -/
theorem dispatch_ending (hs : Ending f.state) (code id : BitVec 8) (inp packet : List (BitVec 8)) :
    Answers f (f.dispatch cb code id inp packet) ∨ Closes f (f.dispatch cb code id inp packet) := by
  rw [dispatch]
  split_ifs with hconfreq hconfack hconfnak hconfrej htermreq htermack hcoderej
  · exact .inl (answers_fsmRconfreq hs id inp)
  · exact .inl (answers_fsmRconfack hs id inp)
  · exact .inl (answers_fsmRconfnakrej hs _ id inp)
  · exact .inl (answers_fsmRconfnakrej hs _ id inp)
  · left
    rw [fsmRtermreq]
    rcases hs with hs | hs <;> rw [hs] <;> exact ⟨rfl, rfl, rfl, .inr ⟨_, _, _, by decide, rfl⟩⟩
  · rw [fsmRtermack]
    rcases hs with hs | hs <;> rw [hs]
    · exact .inr ⟨rfl, rfl, rfl⟩
    · exact .inl (.refl f)
  · left
    rw [fsmRcoderej]
    split_ifs with hlen hack
    · exact .refl f
    · rcases hs with hs | hs <;> cases hs.symm.trans hack
    · exact .refl f
  · left
    dsimp only
    split_ifs
    · exact ⟨rfl, rfl, rfl, .inl rfl⟩
    · exact ⟨rfl, rfl, rfl, .inr ⟨_, _, _, by decide, rfl⟩⟩

theorem fsmInput_ending (cb : FsmCallbacks σ) (hs : Ending f.state) (inpacket : List (BitVec 8)) :
    Answers f (f.fsmInput cb inpacket) ∨ Closes f (f.fsmInput cb inpacket) := by
  rw [fsmInput]
  cases header inpacket with
  | none => exact .inl (.refl f)
  | some p =>
    dsimp only
    rw [if_neg (by rcases hs with hs | hs <;> simp [hs])]
    exact dispatch_ending hs _ _ _ _

theorem fsmProtreject_ending (hs : Ending f.state) (htimer : f.timer = f.state.timed) :
    Closes f (f.fsmProtreject cb) := by
  rw [fsmProtreject]
  rcases hs with hs | hs <;> rw [hs] at htimer ⊢
  · exact ⟨rfl, rfl, rfl⟩
  · exact ⟨rfl, htimer, rfl⟩

/-- The timer ends the link when there are no retransmissions left. -/
theorem fsmTimeout_closing (cb : FsmCallbacks σ) (hs : f.state = .closing) (htimer : f.timer = false) :
    (0 < f.retransmits ∧ (f.fsmTimeout cb).state = .closing ∧ (f.fsmTimeout cb).timer = true ∧
      (f.fsmTimeout cb).retransmits = f.retransmits - 1 ∧
      ∃ id data, (f.fsmTimeout cb).acts = f.acts ++ [.sdata termreq id data]) ∨
    f.retransmits ≤ 0 ∧ Closes f (f.fsmTimeout cb) := by
  rw [fsmTimeout, hs]
  dsimp only
  rcases Int.lt_or_le 0 f.retransmits with hlt | hle
  · rw [if_neg (Int.not_le.2 hlt)]
    exact .inl ⟨hlt, hs, rfl, rfl, _, _, rfl⟩
  · rw [if_pos hle]
    exact .inr ⟨hle, rfl, htimer, rfl⟩

end Fsm

/-! ### Counting -/

/-- The events that the layers above and below have no part in. -/
def FsmEvent.ofPeer : FsmEvent → Bool
  | .timeout | .input _ | .protreject => true
  | _ => false

/-- The terminate requests among some acts. -/
def termreqs (acts : List FsmAct) : ℕ := acts.countP fun a ↦ a matches .sdata 5 _ _

theorem termreqs_append (acts acts' : List FsmAct) : termreqs (acts ++ acts') = termreqs acts + termreqs acts' :=
  List.countP_append

theorem termreqs_answer {code : BitVec 8} (hcode : code ≠ termreq) (id : BitVec 8) (data : List (BitVec 8)) :
    termreqs [.sdata code id data] = 0 := by
  rw [termreqs, List.countP_eq_zero, List.forall_mem_singleton]
  intro h
  split at h
  next heq => exact hcode (FsmAct.sdata.inj heq).1
  next => exact Bool.noConfusion h

/-- How far the end of a link is: `l` was done and the timer has gone off `k` times since `fsm_close`. -/
inductive Fsm.Ends (m : ℤ) (k : ℕ) (l : List FsmAct) (f : Fsm σ) : Prop
  | closing (state : f.state = .closing) (timer : f.timer = true) (retransmits : f.retransmits = m - 1 - k)
    (nonneg : 0 ≤ f.retransmits) (sent : termreqs l = 1 + k) (waits : .finished ∉ l)
  | closed (state : f.state = .closed) (timer : f.timer = false) (count : k ≤ m) (sent : termreqs l ≤ m)
    (told : .finished ∈ l)

namespace Fsm

variable {m : ℤ} {k : ℕ} {l : List FsmAct}

theorem Ends.ending (h : f.Ends m k l) : Ending f.state := by
  cases h with
  | closing state => exact .inl state
  | closed state => exact .inr state

theorem Ends.answers (h : f.Ends m k l) (ha : Answers f f') :
    ∃ l', f'.acts = f.acts ++ l' ∧ .up ∉ l' ∧ f'.Ends m k (l ++ l') := by
  obtain ⟨l', hacts, hup, hfinished, hsent⟩ : ∃ l', f'.acts = f.acts ++ l' ∧ .up ∉ l' ∧ .finished ∉ l' ∧ termreqs l' = 0 := by
    rcases ha.acts with hacts | ⟨code, id, data, hcode, hacts⟩
    · exact ⟨[], by rw [hacts, List.append_nil], by simp, by simp, rfl⟩
    · exact ⟨_, hacts, by simp, by simp, termreqs_answer hcode id data⟩
  refine ⟨l', hacts, hup, ?_⟩
  cases h with
  | closing state timer retransmits nonneg sent waits =>
    refine .closing (ha.state.trans state) (ha.timer.trans timer) (ha.retransmits.trans retransmits)
      (ha.retransmits ▸ nonneg) ?_ (by simp [waits, hfinished])
    rw [termreqs_append, hsent, sent]
    rfl
  | closed state timer count sent told =>
    refine .closed (ha.state.trans state) (ha.timer.trans timer) count ?_ (List.mem_append_left _ told)
    rw [termreqs_append, hsent]
    exact sent

theorem Ends.closes (h : f.Ends m k l) (hc : Closes f f') :
    f'.acts = f.acts ++ [.finished] ∧ f'.Ends m k (l ++ [.finished]) := by
  refine ⟨hc.acts, ?_⟩
  have hsent : termreqs (l ++ [.finished]) = termreqs l := termreqs_append _ _
  have htold : FsmAct.finished ∈ l ++ [.finished] := List.mem_append_right _ List.mem_cons_self
  cases h with
  | closing state timer retransmits nonneg sent waits => exact .closed hc.state hc.timer (by omega) (by omega) htold
  | closed state timer count sent told => exact .closed hc.state hc.timer count (by omega) htold

/-- An event that is due to the peer or to the timer. -/
theorem Ends.step {e : FsmEvent} (h : f.Ends m k l) (hpeer : e.ofPeer) (he : fsmStep cb e f = some f') :
    ∃ l', f'.acts = f.acts ++ l' ∧ .up ∉ l' ∧ f'.Ends m (k + if e = .timeout then 1 else 0) (l ++ l') := by
  cases e with
  | timeout =>
    rw [fsmStep] at he
    split_ifs at he with htimer
    cases he
    cases h with
    | closed state timer => exact absurd htimer (by simp [timer])
    | closing state timer retransmits nonneg sent waits =>
      rcases fsmTimeout_closing cb (f := f.disarm) state rfl with
        ⟨hlt, hstate, htimer', hretransmits, id, data, hacts⟩ | ⟨hle, hc⟩
      · refine ⟨_, hacts, by simp, .closing hstate htimer' ?_ ?_ ?_ (by simp [waits])⟩
        · rw [hretransmits, disarm, retransmits, if_pos rfl]
          omega
        · exact hretransmits ▸ Int.le_sub_one_of_lt hlt
        · rw [termreqs_append, sent, if_pos rfl, Nat.add_assoc]
          rfl
      · have hle' : f.retransmits ≤ 0 := hle
        refine ⟨_, hc.acts, by simp, .closed hc.state hc.timer ?_ ?_ (List.mem_append_right _ List.mem_cons_self)⟩
        · rw [if_pos rfl]
          omega
        · rw [termreqs_append, sent, show termreqs [.finished] = 0 from rfl]
          omega
  | input inpacket =>
    cases he
    rcases fsmInput_ending cb h.ending inpacket with ha | hc
    · exact h.answers ha
    · exact ⟨_, (h.closes hc).1, by simp, (h.closes hc).2⟩
  | protreject =>
    cases he
    have hc : Closes f (f.fsmProtreject cb) := by
      refine fsmProtreject_ending h.ending ?_
      cases h with
      | closing state timer => rw [state, timer]; rfl
      | closed state timer => rw [state, timer]; rfl
    exact ⟨_, (h.closes hc).1, by simp, (h.closes hc).2⟩
  | _ => exact Bool.noConfusion hpeer

/-- `fsm_close`, of a link that is open or being negotiated. -/
theorem ends_fsmClose (hs : Negotiating f.state ∨ f.state = .opened) (hmax : 0 < f.maxtermtransmits)
    (reason : List (BitVec 8)) :
    ∃ l, (f.fsmClose cb reason).acts = f.acts ++ l ∧ .up ∉ l ∧ (f.fsmClose cb reason).Ends f.maxtermtransmits 0 l := by
  rw [fsmClose]
  rcases hs with (hs | hs | hs) | hs <;> simp only [hs]
  case inr =>
    refine ⟨[.down, .sdata termreq _ _], List.append_assoc _ _ _, by simp, ?_⟩
    exact .closing rfl rfl (Int.sub_zero (f.maxtermtransmits - 1)).symm (Int.le_sub_one_of_lt hmax) rfl (by simp)
  all_goals
    refine ⟨[.sdata termreq _ _], rfl, by simp, ?_⟩
    exact .closing rfl rfl (Int.sub_zero (f.maxtermtransmits - 1)).symm (Int.le_sub_one_of_lt hmax) rfl (by simp)

end Fsm

/-- **A link that is closed ends**, whatever the peer sends. After `fsm_close`, in every run of packets and timeouts, the
timer goes off at most `maxtermtransmits` times, and runs until the link is closed. The link does not come up again, at most
`maxtermtransmits` terminate requests are sent, and the layer below is told when it is closed. -/
theorem fsm_close_ends (hs : Negotiating f.state ∨ f.state = .opened) (hmax : 0 < f.maxtermtransmits)
    (reason : List (BitVec 8)) {es : List FsmEvent}
    (hrun : runLabels (guardStep (fun e _ ↦ e.ofPeer = true) (fsmStep cb)) es (f.fsmClose cb reason) = some f') :
    es.count .timeout ≤ f.maxtermtransmits ∧
      (f'.state = .closing ∧ f'.timer = true ∧ es.count .timeout < f.maxtermtransmits ∨
        f'.state = .closed ∧ f'.timer = false) ∧
      ∃ l, f'.acts = f.acts ++ l ∧ .up ∉ l ∧ termreqs l ≤ f.maxtermtransmits ∧ (.finished ∈ l ↔ f'.state = .closed) := by
  obtain ⟨l, hacts, hup, hends⟩ : ∃ l, f'.acts = f.acts ++ l ∧ .up ∉ l ∧
      f'.Ends f.maxtermtransmits (es.count .timeout) l := by
    refine runLabels_induction (I := fun es (g : Fsm σ) ↦ ∃ l, g.acts = f.acts ++ l ∧ .up ∉ l ∧
      g.Ends f.maxtermtransmits (es.count .timeout) l) (ends_fsmClose hs hmax reason) ?_ hrun
    rintro es e g g' - ⟨l, hacts, hup, hends⟩ he
    obtain ⟨hpeer, he⟩ := guardStep_eq_some.1 he
    obtain ⟨l', hacts', hup', hends'⟩ := hends.step hpeer he
    refine ⟨l ++ l', by rw [hacts', hacts, List.append_assoc], by simp [hup, hup'], ?_⟩
    rw [List.count_append, List.count_singleton]
    simpa using hends'
  cases hends with
  | closing state timer retransmits nonneg sent waits =>
    exact ⟨by omega, .inl ⟨state, timer, by omega⟩, l, hacts, hup, by omega, by simp [waits, state]⟩
  | closed state timer count sent told =>
    exact ⟨count, .inr ⟨state, timer⟩, l, hacts, hup, sent, by simp [told, state]⟩

/-- A peer that answers the terminate requests of an open link with requests of its own. -/
theorem fsm_close_ends_ignored :
    ∃ f', runLabels (guardStep (fun e _ ↦ e.ofPeer = true) (fsmStep bareCallbacks))
        [.input [1, 9, 0, 4], .timeout, .input [1, 9, 0, 4], .timeout, .input [1, 9, 0, 4]]
        (Fsm.fsmClose bareCallbacks [] { fsmInit () with state := .opened }) = some f' ∧
      f'.state = .closed ∧ f'.timer = false := by
  refine exists_run_of_observe (fun f ↦ f.state) .closed (by decide) fun f hrun hobs ↦ ?_
  have hclosed : f.state = .closed := hobs
  obtain ⟨-, ⟨hclosing, -⟩ | hend, -⟩ :=
    fsm_close_ends (f := { fsmInit () with state := .opened }) (.inr rfl) (by decide) [] hrun
  · cases hclosing.symm.trans hclosed
  · exact hend

end Lwip.Netif.Ppp
