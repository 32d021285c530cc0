import LwipPoc.Netif.Ppp.FsmStable

/-!
# Two ends of a link

Two machines that negotiate with each other over a line that may lose, repeat and reorder packets, but does not make them
up: a packet can arrive at one end, at any time and any number of times, if the other end has sent it.

**A link comes up on options that the peer has acknowledged** (`peers_acked`), for every protocol whose callbacks compare
an acknowledgement with the request and send back a request that they agree with.
-/

namespace Lwip.Netif.Ppp

open Fsm

variable {σ : Type*} {cb : FsmCallbacks σ} {own : σ → List (BitVec 8)} {f f' g : Fsm σ}

/-! ### Packets -/

/-- A packet as `fsm_sdata` writes it. -/
def wire (code id : BitVec 8) (data : List (BitVec 8)) : List (BitVec 8) :=
  let outlen := data.length + headerlen
  [code, id, .ofNat 8 (outlen / 2 ^ 8), .ofNat 8 outlen] ++ data

theorem header_wire (code id : BitVec 8) {data : List (BitVec 8)} (hlen : data.length + headerlen < 2 ^ 16) :
    header (wire code id data) = some (code, id, data, wire code id data) := by
  have h4 : headerlen = 4 := rfl
  have hsum : (BitVec.ofNat 8 ((data.length + headerlen) / 2 ^ 8)).toNat * 2 ^ 8 +
      (BitVec.ofNat 8 (data.length + headerlen)).toNat = data.length + headerlen := by
    rw [BitVec.toNat_ofNat, BitVec.toNat_ofNat]
    omega
  rw [wire, List.cons_append, List.cons_append, List.cons_append, List.cons_append, List.nil_append, header, hsum,
    if_neg (by omega), Nat.add_sub_cancel, List.take_length, List.take_of_length_le]
  simp [h4]

/-- The packet that is sent, if one is. -/
def FsmAct.packet : FsmAct → Option (List (BitVec 8))
  | .sdata code i data => some (wire code i data)
  | _ => none

/-- The acknowledgements among some acts: their ids and options. -/
def acks (acts : List FsmAct) : List (BitVec 8 × List (BitVec 8)) :=
  acts.filterMap fun
    | .sdata code i data => if code = confack then some (i, data) else none
    | _ => none

@[simp] theorem acks_append (acts acts' : List FsmAct) : acks (acts ++ acts') = acks acts ++ acks acts' :=
  List.filterMap_append

@[simp] theorem acks_told : acks [.up] = [] ∧ acks [.down] = [] ∧ acks [.starting] = [] ∧ acks [.finished] = [] :=
  ⟨rfl, rfl, rfl, rfl⟩

theorem mem_acks {acts : List FsmAct} {i : BitVec 8} {data : List (BitVec 8)} :
    (i, data) ∈ acks acts ↔ .sdata confack i data ∈ acts := by
  rw [acks, List.mem_filterMap]
  constructor
  · rintro ⟨a, ha, hdata⟩
    cases a with
    | sdata code i' data' =>
      dsimp only at hdata
      split_ifs at hdata with hcode
      cases hdata
      exact hcode ▸ ha
    | _ => cases hdata
  · exact fun h ↦ ⟨_, h, rfl⟩

namespace Fsm

theorem length_take_mru (ci : σ) (data : List (BitVec 8)) :
    (data.take ((cb.peerMru ci).toNat - headerlen)).length + headerlen < 2 ^ 16 := by
  have hmru := (cb.peerMru ci).isLt
  have h4 : headerlen = 4 := rfl
  rw [List.length_take]
  omega

/-! ### Steps that neither acknowledge nor are acknowledged -/

@[simp] theorem acks_fsmSdata (code i : BitVec 8) (data : List (BitVec 8)) :
    acks (f.fsmSdata cb code i data).acts = acks f.acts ++
      if code = confack then [(i, data.take ((cb.peerMru f.ci).toNat - headerlen))] else [] := by
  rw [fsmSdata, acks_append]
  split_ifs with hcode <;> simp [acks, hcode]

@[simp] theorem acks_fsmSconfreq (retransmit : Bool) : acks (f.fsmSconfreq cb retransmit).acts = acks f.acts := by
  rw [fsmSconfreq]
  split_ifs <;> exact (acks_fsmSdata _ _ _).trans (List.append_nil _)

@[simp] theorem acks_terminate : acks (f.terminate cb).acts = acks f.acts :=
  (acks_fsmSdata _ _ _).trans (List.append_nil _)

/-- The machine has read an acknowledgement of its request, and has not started again. -/
def Held (s : LinkState) : Prop := s = .ackrcvd ∨ s = .opened

instance (s : LinkState) : Decidable (Held s) := inferInstanceAs (Decidable (_ ∨ _))

/-- No request is acknowledged; and if the request of the machine is acknowledged, it was so before, and its options
are the same. -/
structure Moves (own : σ → List (BitVec 8)) (f f' : Fsm σ) : Prop where
  acks : acks f'.acts = acks f.acts
  held : Held f'.state → Held f.state ∧ f'.reqid = f.reqid ∧ own f'.ci = own f.ci ∧ f'.seenAck = f.seenAck

theorem Moves.refl (f : Fsm σ) : Moves own f f := ⟨rfl, fun h ↦ ⟨h, rfl, rfl, rfl⟩⟩

theorem moves_iff : Moves own f f' ↔ Ppp.acks f'.acts = Ppp.acks f.acts ∧
    (Held f'.state → Held f.state ∧ f'.reqid = f.reqid ∧ own f'.ci = own f.ci ∧ f'.seenAck = f.seenAck) :=
  ⟨fun h ↦ ⟨h.acks, h.held⟩, fun h ↦ ⟨h.1, h.2⟩⟩

theorem Moves.trans (h : Moves own f g) (h' : Moves own g f') : Moves own f f' := by
  refine ⟨h'.acks.trans h.acks, fun hheld ↦ ?_⟩
  obtain ⟨hg, hreqid', hown', hseen'⟩ := h'.held hheld
  obtain ⟨hf, hreqid, hown, hseen⟩ := h.held hg
  exact ⟨hf, hreqid'.trans hreqid, hown'.trans hown, hseen'.trans hseen⟩

theorem moves_fsmLowerup : Moves own f (f.fsmLowerup cb) := by
  rw [fsmLowerup]
  cases hs : f.state <;> dsimp only
  case initial => simp [moves_iff, Held]
  case starting => split_ifs <;> simp [moves_iff, Held]
  all_goals exact .refl f

theorem moves_fsmLowerdown : Moves own f (f.fsmLowerdown cb) := by
  rw [fsmLowerdown]
  cases hs : f.state <;> simp [moves_iff, Held, hs]

theorem moves_reopen : Moves own f (f.reopen cb) := by
  rw [reopen]
  split_ifs
  · exact moves_fsmLowerdown.trans moves_fsmLowerup
  · exact .refl f

theorem moves_fsmOpen : Moves own f (f.fsmOpen cb) := by
  rw [fsmOpen]
  cases hs : f.state <;> dsimp only
  case initial => simp [moves_iff, Held]
  case closed => split_ifs <;> simp [moves_iff, Held]
  case closing => exact Moves.trans (by simp [moves_iff, Held]) moves_reopen
  case stopped | opened => exact moves_reopen
  all_goals exact .refl f

theorem moves_fsmClose (reason : List (BitVec 8)) : Moves own f (f.fsmClose cb reason) := by
  rw [fsmClose]
  cases hs : f.state <;> simp [moves_iff, Held, hs]

theorem moves_fsmTimeout : Moves own f (f.fsmTimeout cb) := by
  rw [fsmTimeout]
  cases hs : f.state <;> dsimp only
  case closing | stopping => split_ifs <;> simp_all [moves_iff, Held]
  case reqsent | ackrcvd | acksent => split_ifs <;> simp_all [moves_iff, Held]
  all_goals exact ⟨rfl, fun h ↦ ⟨h, rfl, rfl, rfl⟩⟩

theorem moves_fsmRconfnakrej (hseen : Held f.state → f.seenAck = true)
    (proc : Option (LinkState → σ → List (BitVec 8) → ℤ × σ)) (i : BitVec 8) (inp : List (BitVec 8)) :
    Moves own f (f.fsmRconfnakrej cb proc i inp) := by
  rw [fsmRconfnakrej]
  split_ifs with hid
  · exact .refl f
  have hheld : ¬Held f.state := fun h ↦ hid (.inr (hseen h))
  rcases proc.elim (0, f.ci) fun proc ↦ proc f.state f.ci inp with ⟨ret, ci⟩
  rcases eq_or_ne ret 0 with rfl | hne
  · exact ⟨rfl, fun h ↦ absurd h hheld⟩
  dsimp only
  rw [if_neg hne]
  cases hs : f.state <;> rw [hs] at hheld <;> dsimp only
  case reqsent | acksent => split_ifs <;> simp [moves_iff, Held, hs]
  case ackrcvd | opened => exact absurd (by decide) hheld
  all_goals simp [moves_iff, Held, confack, termack]

theorem moves_fsmRtermreq (i : BitVec 8) : Moves own f (f.fsmRtermreq cb i) := by
  rw [fsmRtermreq]
  cases hs : f.state <;> simp [moves_iff, Held, confack, termack, hs]

theorem moves_fsmRtermack (hopened : f.state ≠ .opened) : Moves own f (f.fsmRtermack cb) := by
  rw [fsmRtermack]
  cases hs : f.state <;> simp_all [moves_iff, Held]

theorem moves_fsmRcoderej (inp : List (BitVec 8)) : Moves own f (f.fsmRcoderej inp) := by
  rw [fsmRcoderej]
  split_ifs
  · exact .refl f
  · simp [moves_iff, Held]
  · exact .refl f

theorem moves_fsmProtreject : Moves own f (f.fsmProtreject cb) := by
  rw [fsmProtreject]
  cases hs : f.state <;> simp [moves_iff, Held, hs]

/-! ### Acknowledgements -/

/-- A packet that is read. -/
def Reads (e : FsmEvent) (code i : BitVec 8) (inp : List (BitVec 8)) : Prop :=
  ∃ inpacket packet, e = .input inpacket ∧ header inpacket = some (code, i, inp, packet)

end Fsm

/-- The callbacks compare an acknowledgement with the options of the machine, and an answer that acknowledges a request is
the request. -/
structure Negotiates (cb : FsmCallbacks σ) (own : σ → List (BitVec 8)) : Prop where
  bare : cb.ackci = none → ∀ ci, own ci = []
  ackci : ∀ ackci ∈ cb.ackci, ∀ s ci inp, (ackci s ci inp).1 = true → own (ackci s ci inp).2 = inp
  reqci : ∀ reqci ∈ cb.reqci, ∀ ci inp rej, own (reqci ci inp rej).2.2 = own ci ∧
    ((reqci ci inp rej).1 = confack → (reqci ci inp rej).2.1 = inp)
  up : ∀ up ∈ cb.up, ∀ ci, own (up ci) = own ci
  extcode : ∀ extcode ∈ cb.extcode, ∀ ci code i data, own (extcode ci code i data).2 = own ci

/-- The callback agrees with a request, if there is one. -/
def Granted (cb : FsmCallbacks σ) (ci : σ) (inp : List (BitVec 8)) : Prop :=
  ∀ reqci ∈ cb.reqci, ∃ rej, (reqci ci inp rej).1 = confack

/-- A part of the options that no callback changes. -/
def Keeps {κ : Type*} (cb : FsmCallbacks σ) (key : σ → κ) : Prop := ∀ k, Stable cb fun ci _ ↦ key ci = k

namespace Fsm

variable {κ : Type*} {key : σ → κ}

/-- A request that the machine reads may be acknowledged, if the callback agrees with it, and no other; and if the request of
the machine is acknowledged, it was so before, or the acknowledgement is read. -/
structure Acked (cb : FsmCallbacks σ) (own : σ → List (BitVec 8)) (key : σ → κ) (e : FsmEvent) (f f' : Fsm σ) : Prop where
  acks : acks f'.acts = acks f.acts ∨
    ∃ i inp n ci, Reads e confreq i inp ∧ key ci = key f.ci ∧ Granted cb ci inp ∧
      Ppp.acks f'.acts = Ppp.acks f.acts ++ [(i, inp.take n)]
  held : Held f'.state → f'.seenAck = true ∧
    (Held f.state ∧ f'.reqid = f.reqid ∧ own f'.ci = own f.ci ∨ Reads e confack f'.reqid (own f'.ci))

theorem Moves.acked (h : Moves own f f') (hseen : Held f.state → f.seenAck = true) (e : FsmEvent) :
    Acked cb own key e f f' := by
  refine ⟨.inl h.acks, fun hheld ↦ ?_⟩
  obtain ⟨hf, hreqid, hown, hseen'⟩ := h.held hheld
  exact ⟨hseen'.trans (hseen hf), .inl ⟨hf, hreqid, hown⟩⟩

theorem own_up (hneg : Negotiates cb own) (ci : σ) : own (cb.up.elim ci (· ci)) = own ci := by
  cases hup : cb.up with
  | none => rfl
  | some up => exact hneg.up up hup ci

theorem acks_respond (code i : BitVec 8) (inp : List (BitVec 8)) : acks (f.respond cb code i inp).acts =
    acks f.acts ++ if code = confack then [(i, inp.take ((cb.peerMru f.ci).toNat - headerlen))] else [] := by
  rw [← acks_fsmSdata, respond]
  dsimp only
  split_ifs <;> simp [goUp]

theorem held_respond (hneg : Negotiates cb own) {code i : BitVec 8} {inp : List (BitVec 8)}
    (hheld : Held (f.respond cb code i inp).state) : f.state = .ackrcvd ∧ (f.respond cb code i inp).reqid = f.reqid ∧
      own (f.respond cb code i inp).ci = own f.ci ∧ (f.respond cb code i inp).seenAck = f.seenAck := by
  revert hheld
  rw [respond]
  dsimp only
  rw [fsmSdata_state]
  split_ifs with hcode hs hnak hs hs
  · exact fun _ ↦ ⟨hs, rfl, own_up hneg _, rfl⟩
  · exact fun h ↦ absurd h (by decide : ¬Held .acksent)
  · exact fun _ ↦ ⟨hs, rfl, rfl, rfl⟩
  · exact fun h ↦ absurd h (by decide : ¬Held .reqsent)
  · exact fun _ ↦ ⟨hs, rfl, rfl, rfl⟩
  · exact fun h ↦ absurd h (by decide : ¬Held .reqsent)

/-- The answer to a request. -/
theorem answer_spec (hneg : Negotiates cb own) (i : BitVec 8) (inp : List (BitVec 8)) :
    (acks (f.answer cb i inp).acts = acks f.acts ∨
      ∃ n, Granted cb f.ci inp ∧ acks (f.answer cb i inp).acts = acks f.acts ++ [(i, inp.take n)]) ∧
    (Held (f.answer cb i inp).state → f.state = .ackrcvd ∧ (f.answer cb i inp).reqid = f.reqid ∧
      own (f.answer cb i inp).ci = own f.ci ∧ (f.answer cb i inp).seenAck = f.seenAck) := by
  rw [answer]
  split
  next reqci hreqci =>
    obtain ⟨hown, hack⟩ := hneg.reqci reqci hreqci f.ci inp (f.maxnakloops ≤ f.nakloops)
    have hgranted : (reqci f.ci inp (f.maxnakloops ≤ f.nakloops)).1 = confack → Granted cb f.ci inp :=
      fun hcode reqci' hreqci' ↦ ⟨_, Option.some.inj (hreqci'.symm.trans hreqci) ▸ hcode⟩
    revert hown hack hgranted
    rcases reqci f.ci inp (f.maxnakloops ≤ f.nakloops) with ⟨code, inp', ci⟩
    intro hown hack hgranted
    refine ⟨?_, fun h ↦ ?_⟩
    · dsimp only
      rw [acks_respond]
      split_ifs with hcode
      · rw [show inp' = inp from hack hcode]
        exact .inr ⟨_, hgranted hcode, rfl⟩
      · exact .inl (List.append_nil _)
    · obtain ⟨hs, hreqid, hci, hseen⟩ := held_respond hneg h
      exact ⟨hs, hreqid, hci.trans hown, hseen⟩
  next hreqci =>
    refine ⟨?_, held_respond hneg⟩
    rw [acks_respond]
    rcases eq_or_ne (if inp = [] then confack else confrej) confack with hcode | hcode
    · rw [if_pos hcode]
      exact .inr ⟨_, fun reqci h ↦ absurd (h.symm.trans hreqci) (Option.some_ne_none reqci), rfl⟩
    · rw [if_neg hcode]
      exact .inl (List.append_nil _)

theorem acked_fsmRconfreq (hneg : Negotiates cb own) (hkey : Keeps cb key) (hseen : Held f.state → f.seenAck = true)
    {e : FsmEvent} {i : BitVec 8} {inp : List (BitVec 8)} (he : Reads e confreq i inp) :
    Acked cb own key e f (f.fsmRconfreq cb i inp) := by
  have hanswer {g : Fsm σ} (hacks : Ppp.acks g.acts = Ppp.acks f.acts) (hci : key g.ci = key f.ci)
      (hg : g.state = .ackrcvd → g = f) : Acked cb own key e f (g.answer cb i inp) := by
    obtain ⟨hacked, hheld⟩ := answer_spec (f := g) hneg i inp
    refine ⟨?_, fun h ↦ ?_⟩
    · rcases hacked with hsame | ⟨n, hgranted, hmore⟩
      · exact .inl (hsame.trans hacks)
      · exact .inr ⟨i, inp, n, g.ci, he, hci, hgranted, hacks ▸ hmore⟩
    · obtain ⟨hs, hreqid, hown, hseen'⟩ := hheld h
      cases hg hs
      exact ⟨hseen'.trans (hseen (.inl hs)), .inl ⟨.inl hs, hreqid, hown⟩⟩
  rw [fsmRconfreq]
  cases hs : f.state <;> dsimp only
  case closed => exact Moves.acked (by simp [moves_iff, Held, hs, confack, termack]) hseen e
  case closing | stopping => exact (Moves.refl f).acked hseen e
  case opened => exact hanswer (by simp) ((hkey (key f.ci)).again (f := f) rfl) (by simp [hs])
  case stopped => exact hanswer (by simp) ((hkey (key f.ci)).fsmSconfreq (f := f) rfl false) (by simp)
  all_goals exact hanswer rfl rfl fun _ ↦ rfl

theorem acked_fsmRconfack (hneg : Negotiates cb own) (hseen : Held f.state → f.seenAck = true) {e : FsmEvent} {i : BitVec 8}
    {inp : List (BitVec 8)} (he : Reads e confack i inp) : Acked cb own key e f (f.fsmRconfack cb i inp) := by
  rw [fsmRconfack]
  split_ifs with hid
  · exact (Moves.refl f).acked hseen e
  obtain ⟨hreqid, hunseen⟩ := not_or.1 hid
  have hheld : ¬Held f.state := fun h ↦ hunseen (hseen h)
  have hgood : (cb.ackci.elim (decide (inp = []), f.ci) fun ackci ↦ ackci f.state f.ci inp).1 = true →
      own (cb.ackci.elim (decide (inp = []), f.ci) fun ackci ↦ ackci f.state f.ci inp).2 = inp := by
    cases hackci : cb.ackci with
    | none => exact fun h ↦ (hneg.bare hackci f.ci).trans (of_decide_eq_true h).symm
    | some ackci => exact hneg.ackci ackci hackci f.state f.ci inp
  revert hgood
  rcases cb.ackci.elim (decide (inp = []), f.ci) fun ackci ↦ ackci f.state f.ci inp with ⟨good, ci⟩
  intro hgood
  cases good with
  | false => exact ⟨.inl rfl, fun h ↦ absurd h hheld⟩
  | true =>
    have hown : own ci = inp := hgood rfl
    have hread : Reads e confack f.reqid (own ci) := by rw [hown, ← of_not_not hreqid]; exact he
    cases hs : f.state
    case ackrcvd | opened => exact absurd (by rw [hs]; decide) hheld
    case reqsent => exact ⟨.inl rfl, fun _ ↦ ⟨rfl, .inr hread⟩⟩
    case acksent =>
      refine ⟨.inl (by simp [goUp]), fun _ ↦ ⟨rfl, .inr ?_⟩⟩
      show Reads e confack f.reqid (own (cb.up.elim ci (· ci)))
      rwa [own_up hneg]
    all_goals refine ⟨.inl ?_, fun h ↦ ?_⟩ <;> simp_all [Held, confack, termack]

theorem acked_dispatch (hneg : Negotiates cb own) (hkey : Keeps cb key) (hseen : Held f.state → f.seenAck = true)
    {e : FsmEvent} {code i : BitVec 8} {inp : List (BitVec 8)} (he : Reads e code i inp)
    (hack : ¬(f.state = .opened ∧ code = termack)) (packet : List (BitVec 8)) :
    Acked cb own key e f (f.dispatch cb code i inp packet) := by
  rw [dispatch]
  split_ifs with hconfreq hconfack hconfnak hconfrej htermreq htermack hcoderej
  · exact acked_fsmRconfreq hneg hkey hseen (hconfreq ▸ he)
  · exact acked_fsmRconfack hneg hseen (hconfack ▸ he)
  · exact (moves_fsmRconfnakrej hseen _ i inp).acked hseen e
  · exact (moves_fsmRconfnakrej hseen _ i inp).acked hseen e
  · exact (moves_fsmRtermreq i).acked hseen e
  · exact (moves_fsmRtermack fun hs ↦ hack ⟨hs, htermack⟩).acked hseen e
  · exact (moves_fsmRcoderej inp).acked hseen e
  · have hown : own (cb.extcode.elim (false, f.ci) fun extcode ↦ extcode f.ci code i inp).2 = own f.ci := by
      cases hextcode : cb.extcode with
      | none => rfl
      | some extcode => exact hneg.extcode extcode hextcode f.ci code i inp
    dsimp only
    split_ifs <;> refine Moves.acked ?_ hseen e
    · exact ⟨rfl, fun h ↦ ⟨h, rfl, hown, rfl⟩⟩
    · exact ⟨(acks_fsmSdata _ _ _).trans (List.append_nil _), fun h ↦ ⟨h, rfl, hown, rfl⟩⟩

theorem acked_step (hneg : Negotiates cb own) (hkey : Keeps cb key) (hseen : Held f.state → f.seenAck = true)
    {e : FsmEvent} (hack : ¬TermackOpen e f) (he : fsmStep cb e f = some f') : Acked cb own key e f f' := by
  cases e with
  | timeout =>
    rw [fsmStep] at he
    split_ifs at he
    cases he
    have hdisarm : Moves own f f.disarm := ⟨rfl, fun h ↦ ⟨h, rfl, rfl, rfl⟩⟩
    exact (hdisarm.trans moves_fsmTimeout).acked hseen _
  | lowerup => cases he; exact moves_fsmLowerup.acked hseen _
  | lowerdown => cases he; exact moves_fsmLowerdown.acked hseen _
  | opens => cases he; exact moves_fsmOpen.acked hseen _
  | close reason => cases he; exact (moves_fsmClose reason).acked hseen _
  | protreject => cases he; exact moves_fsmProtreject.acked hseen _
  | input inpacket =>
    cases he
    rw [fsmInput]
    cases hheader : header inpacket with
    | none => exact (Moves.refl f).acked hseen _
    | some p =>
      obtain ⟨code, i, inp, packet⟩ := p
      dsimp only
      split_ifs with hdown
      · exact (Moves.refl f).acked hseen _
      · exact acked_dispatch hneg hkey hseen ⟨inpacket, packet, rfl, hheader⟩
          (fun hopened ↦ hack ⟨hopened.1, _, hheader, hopened.2⟩) packet

end Fsm

/-! ### What was sent stays sent -/

/-- The length of a packet can be written. -/
def FsmAct.Short : FsmAct → Prop
  | .sdata _ _ data => data.length + headerlen < 2 ^ 16
  | _ => True

/-- More is done, and the packets that are sent are short. -/
def Grows (acts acts' : List FsmAct) : Prop := ∃ l, acts' = acts ++ l ∧ ∀ a ∈ l, a.Short

theorem grows_refl (acts : List FsmAct) : Grows acts acts := ⟨[], (List.append_nil _).symm, List.forall_mem_nil _⟩

theorem Grows.concat {acts acts' : List FsmAct} {a : FsmAct} (h : Grows acts acts') (ha : a.Short) :
    Grows acts (acts' ++ [a]) := by
  obtain ⟨l, rfl, hl⟩ := h
  exact ⟨l ++ [a], List.append_assoc _ _ _, List.forall_mem_append.2 ⟨hl, List.forall_mem_singleton.2 ha⟩⟩

theorem stable_grows (cb : FsmCallbacks σ) (acts : List FsmAct) : Stable cb fun _ acts' ↦ Grows acts acts' where
  resetci _ _ _ _ h := h
  cilen _ _ _ _ h := h
  addci _ _ _ _ _ h := h
  ackci _ _ _ _ _ _ h := h
  nakci _ _ _ _ _ _ h := h
  rejci _ _ _ _ _ _ h := h
  reqci _ _ _ _ _ _ _ h := h.concat (Fsm.length_take_mru _ _)
  call a ha _ _ h := by
    refine h.concat ?_
    simp only [FsmCallbacks.told, List.mem_cons, List.not_mem_nil, or_false] at ha
    rcases ha with rfl | rfl | rfl | rfl <;> exact trivial
  retransmit _ _ _ _ h := h
  extcode _ _ _ _ _ _ _ h := h
  sdata ci _ _ data _ _ h := h.concat (Fsm.length_take_mru ci data)

/-! ### The line -/

/-- A packet can be read, at any time and any number of times, once the other end has sent it. -/
def Carried : FsmEvent → Fsm σ → Prop
  | .input inpacket, g => ∃ a ∈ g.acts, a.packet = some inpacket
  | _, _ => True

instance (e : FsmEvent) (g : Fsm σ) : Decidable (Carried e g) :=
  match e with
  | .input inpacket => List.decidableBEx (fun a : FsmAct ↦ a.packet = some inpacket) g.acts
  | .lowerup | .lowerdown | .opens | .close _ | .timeout | .protreject => .isTrue trivial

/-- A step of one end. A packet that it reads was sent by the other end. -/
def peersStep (cb : FsmCallbacks σ) (p : Bool × FsmEvent) (s : Bool → Fsm σ) : Option (Bool → Fsm σ) :=
  if Carried p.2 (s !p.1) then (fsmStep cb p.2 (s p.1)).map (Function.update s p.1) else none

variable {κ : Type*} {key : σ → κ} {k : Bool → κ}

/-- The request of an end that holds it to be acknowledged is so, and what is acknowledged was asked for and agreed with. -/
structure Agreed (cb : FsmCallbacks σ) (own : σ → List (BitVec 8)) (key : σ → κ) (k : Bool → κ) (s : Bool → Fsm σ) :
    Prop where
  short : ∀ p, ∀ a ∈ (s p).acts, a.Short
  held : ∀ p, Held (s p).state → (s p).seenAck = true ∧ ((s p).reqid, own (s p).ci) ∈ acks (s !p).acts
  asked : ∀ p, ∀ a ∈ acks (s p).acts, ∃ req n ci, .sdata confreq a.1 req ∈ (s !p).acts ∧ a.2 = req.take n ∧
    key ci = k p ∧ Granted cb ci req
  key : ∀ p, key (s p).ci = k p

/-- A packet that is read from the line was sent as it is read. -/
theorem mem_acts_of_reads {e : FsmEvent} {code i : BitVec 8} {inp : List (BitVec 8)} (hshort : ∀ a ∈ g.acts, a.Short)
    (hcarried : Carried e g) (hread : Reads e code i inp) : .sdata code i inp ∈ g.acts := by
  obtain ⟨inpacket, packet, rfl, hheader⟩ := hread
  obtain ⟨a, ha, hpacket⟩ := hcarried
  cases a with
  | sdata code' i' inp' =>
    cases Option.some.inj hpacket
    cases (header_wire code' i' (hshort _ ha)).symm.trans hheader
    exact ha
  | _ => cases hpacket

theorem Grows.acks_subset {acts acts' : List FsmAct} (h : Grows acts acts') : acks acts ⊆ acks acts' := by
  obtain ⟨l, rfl, -⟩ := h
  rw [acks_append]
  exact List.subset_append_left _ _

theorem Grows.subset {acts acts' : List FsmAct} (h : Grows acts acts') : acts ⊆ acts' := by
  obtain ⟨l, rfl, -⟩ := h
  exact List.subset_append_left _ _

/-- A step of one end keeps what both ends hold of each other. -/
theorem Agreed.step (hneg : Negotiates cb own) (hkey : Keeps cb key) {s s' : Bool → Fsm σ}
    (h : Agreed cb own key k s) {p : Bool × FsmEvent} (hack : ¬TermackOpen p.2 (s p.1))
    (hs : peersStep cb p s = some s') : Agreed cb own key k s' := by
  obtain ⟨p, e⟩ := p
  rw [peersStep] at hs
  split_ifs at hs with hcarried
  obtain ⟨f', he, rfl⟩ := Option.map_eq_some_iff.1 hs
  have hgrows : Grows (s p).acts f'.acts := (stable_grows cb _).step (grows_refl _) he
  have hacked : Acked cb own key e (s p) f' := acked_step hneg hkey (fun hheld ↦ (h.held p hheld).1) hack he
  have hself : Function.update s p f' p = f' := Function.update_self p f' s
  have hother : Function.update s p f' (!p) = s !p := Function.update_of_ne (by simp : (!p) ≠ p) f' s
  refine ⟨fun q ↦ ?_, fun q ↦ ?_, fun q ↦ ?_, fun q ↦ ?_⟩ <;>
    obtain rfl | rfl : q = p ∨ q = !p := by cases p <;> cases q <;> decide
  -- the packets are short
  · rw [hself]
    obtain ⟨l, hl, hshort⟩ := hgrows
    rw [hl]
    exact List.forall_mem_append.2 ⟨h.short q, hshort⟩
  · rw [hother]
    exact h.short _
  -- what an end holds to be acknowledged is so
  · rw [hself, hother]
    intro hheld
    obtain ⟨hseen, ⟨hbefore, hreqid, hown⟩ | hread⟩ := hacked.held hheld
    · exact ⟨hseen, by rw [hreqid, hown]; exact (h.held q hbefore).2⟩
    · exact ⟨hseen, mem_acks.2 (mem_acts_of_reads (h.short _) hcarried hread)⟩
  · rw [Bool.not_not, hself, hother]
    intro hheld
    obtain ⟨hseen, hmem⟩ := h.held _ hheld
    rw [Bool.not_not] at hmem
    exact ⟨hseen, hgrows.acks_subset hmem⟩
  -- what is acknowledged was asked for
  · rw [hself, hother]
    intro a ha
    rcases hacked.acks with hacks | ⟨i, inp, n, ci, hread, hci, hgranted, hacks⟩
    · exact h.asked q a (hacks ▸ ha)
    · rw [hacks, List.mem_append, List.mem_singleton] at ha
      rcases ha with ha | rfl
      · exact h.asked q a ha
      · exact ⟨inp, n, ci, mem_acts_of_reads (h.short _) hcarried hread, rfl, hci.trans (h.key q), hgranted⟩
  · rw [Bool.not_not, hself, hother]
    intro a ha
    obtain ⟨req, n, ci, hmem, hasked⟩ := h.asked _ a ha
    rw [Bool.not_not] at hmem
    exact ⟨req, n, ci, hgrows.subset hmem, hasked⟩
  -- the callbacks keep the key
  · rw [hself]
    exact (hkey (k q)).step (h.key q) he
  · rw [hother]
    exact h.key _

theorem agreed_run (hneg : Negotiates cb own) (hkey : Keeps cb key) {ci : Bool → σ} {passive restart silent : Bool → Bool}
    {es : List (Bool × FsmEvent)} {s : Bool → Fsm σ}
    (hrun : runLabels (guardStep (fun p s ↦ ¬TermackOpen p.2 (s p.1)) (peersStep cb)) es (fun p ↦
      { fsmInit (ci p) with passive := passive p, restart := restart p, silent := silent p }) = some s) :
    Agreed cb own key (fun p ↦ key (ci p)) s := by
  refine runLabels_invariant (I := Agreed cb own key fun p ↦ key (ci p)) ⟨?_, ?_, ?_, ?_⟩ (fun p s s' h he ↦ ?_) hrun
  · exact fun p ↦ List.forall_mem_nil _
  · exact fun p hheld ↦ absurd hheld (by simp [Held, fsmInit])
  · exact fun p ↦ List.forall_mem_nil _
  · exact fun p ↦ rfl
  · obtain ⟨hack, he⟩ := guardStep_eq_some.1 he
    exact h.step hneg hkey hack he

/-- What an end is open on was asked for, and the peer agreed with it. -/
theorem Agreed.granted {s : Bool → Fsm σ} (h : Agreed cb own key k s) {p : Bool} (hs : Held (s p).state) :
    .sdata confack (s p).reqid (own (s p).ci) ∈ (s !p).acts ∧
      ∃ req n ci, .sdata confreq (s p).reqid req ∈ (s p).acts ∧ own (s p).ci = req.take n ∧ key ci = k !p ∧
        Granted cb ci req := by
  obtain ⟨-, hmem⟩ := h.held p hs
  obtain ⟨req, n, ci, hreq, hdata, hci, hgranted⟩ := h.asked _ _ hmem
  rw [Bool.not_not] at hreq
  exact ⟨mem_acks.1 hmem, req, n, ci, hreq, hdata, hci, hgranted⟩

/-- **A link comes up on options that the peer has acknowledged**, whatever the line does to the packets. In every run of two
ends in which no open end is sent a terminate acknowledgement, an end that is open, or waits only for the request of the
peer, uses options that the peer has acknowledged, under the id of the last request, in answer to a request that it received
and that its callback agreed with. -/
theorem peers_acked (hneg : Negotiates cb own) (hkey : Keeps cb key) (ci : Bool → σ) (passive restart silent : Bool → Bool)
    {es : List (Bool × FsmEvent)} {s : Bool → Fsm σ}
    (hrun : runLabels (guardStep (fun p s ↦ ¬TermackOpen p.2 (s p.1)) (peersStep cb)) es (fun p ↦
      { fsmInit (ci p) with passive := passive p, restart := restart p, silent := silent p }) = some s) (p : Bool)
    (hs : (s p).state = .ackrcvd ∨ (s p).state = .opened) :
    .sdata confack (s p).reqid (own (s p).ci) ∈ (s !p).acts ∧
      ∃ req n ci', .sdata confreq (s p).reqid req ∈ (s p).acts ∧ own (s p).ci = req.take n ∧
        key ci' = key (ci !p) ∧ Granted cb ci' req :=
  (agreed_run hneg hkey hrun).granted hs

/-- Two ends of a protocol without options. -/
theorem negotiates_bareCallbacks : Negotiates bareCallbacks fun _ ↦ [] where
  bare _ _ := rfl
  ackci := by simp [bareCallbacks]
  reqci := by simp [bareCallbacks]
  up := by simp [bareCallbacks]
  extcode := by simp [bareCallbacks]

theorem keeps_bareCallbacks : Keeps bareCallbacks fun _ ↦ () := fun _ ↦ by constructor <;> simp

/-- Two ends that come up, though the first request is lost. -/
theorem peers_acked_opened :
    ∃ s, runLabels (guardStep (fun p s ↦ ¬TermackOpen p.2 (s p.1)) (peersStep bareCallbacks))
        [(false, .opens), (false, .lowerup), (true, .opens), (true, .lowerup), (false, .timeout),
          (true, .input [1, 1, 0, 4]), (false, .input [1, 1, 0, 4]), (false, .input [2, 1, 0, 4])]
        (fun _ ↦ { fsmInit () with passive := false, restart := false, silent := false }) = some s ∧
      .sdata confack (s false).reqid [] ∈ (s true).acts := by
  refine exists_run_of_observe (fun s ↦ (s false).state) .opened (by decide) fun s hrun hobs ↦ ?_
  exact (peers_acked negotiates_bareCallbacks keeps_bareCallbacks (fun _ ↦ ()) _ _ _ hrun false (.inr hobs)).1

end Lwip.Netif.Ppp
