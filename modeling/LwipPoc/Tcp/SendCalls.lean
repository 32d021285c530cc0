import LwipPoc.Tcp.SendSteps

/-!
# The send queues under the calls of the application

What the calls of the application do to the send queues, also those that it makes from its callbacks, and
what they must keep to (`CallKeeps`).

There are three things that one may want to keep, and they need different conditions (`Aim`). For the
**bytes** of the stream to stay what the application has written, `tcp_write` must extend only the last
segment of the stream. For the **FIN** to be acknowledged only after it was sent, `tcp_close` must not put
it on another segment either. For the queues to be in **order**, `tcp_close` must not put it on a segment
with data at all, since `snd_lbb` is not moved on then.

Before the connection is established no window is known and nothing can be written (`Opening`).
-/

namespace Lwip.Tcp

/-- What is to be kept. -/
inductive Aim
  | bytes
  | fin
  | order
  deriving DecidableEq, Repr

/-- The states in which the send queues are looked at: before the own `FIN`, and after it unless only the
bytes are to be kept. -/
def TcpState.within (aim : Aim) : TcpState → Bool
  | .synSent | .synRcvd | .established | .closeWait => true
  | .finWait1 | .finWait2 | .closing | .lastAck => aim ≠ .bytes
  | .closed | .listen | .timeWait => false

namespace Pcb

variable {isn : SeqNum} {s s' t : Pcb} {aim : Aim}

/-- The layout is carried along as the aim says. -/
abbrev CarriesFor (isn : SeqNum) (aim : Aim) (s s' : Pcb) : Prop :=
  Carries isn (aim = .order) (aim = .fin) s s'

/-- If the send queues are looked at afterwards, they were before, and the layout is carried along. -/
def Evolves (isn : SeqNum) (aim : Aim) (s s' : Pcb) : Prop :=
  s'.state.within aim = true → s.state.within aim = true ∧ CarriesFor isn aim s s'

theorem Evolves.trans (h : Evolves isn aim s t) (h' : Evolves isn aim t s') : Evolves isn aim s s' := by
  intro hs'
  obtain ⟨ht, hc'⟩ := h' hs'
  obtain ⟨hs, hc⟩ := h ht
  exact ⟨hs, hc.trans hc'⟩

theorem Evolves.gone (h : s'.state.within aim = false) : Evolves isn aim s s' :=
  fun hs' ↦ absurd hs' (by rw [h]; exact Bool.false_ne_true)

theorem Carries.evolves (h : CarriesFor isn aim s s') (hstate : s'.state = s.state) :
    Evolves isn aim s s' := fun hs' ↦ ⟨hstate ▸ hs', h⟩

theorem Evolves.refl : Evolves isn aim s s := Carries.refl.evolves rfl

theorem Quiet.evolves (h : Quiet s s') : Evolves isn aim s s' := h.carries.evolves h.state

/-! ### `tcp_output` -/

theorem outputOne_state (seg : TcpSeg) (rest : List TcpSeg) :
    (s.outputOne seg rest).state = s.state := by
  simp only [outputOne, tcpOutputSegment, emit]
  split_ifs <;> rfl

theorem outputLoop_state {wnd : ℕ} {q : List TcpSeg} : (outputLoop wnd q s).state = s.state := by
  induction q generalizing s with
  | nil => rfl
  | cons seg rest ih =>
    rw [outputLoop]
    split_ifs
    · rfl
    · rw [ih, outputOne_state]
    · rfl

theorem tcpOutput_state (input alloc : Bool) : (s.tcpOutput input alloc).state = s.state := by
  rcases tcpOutput_cases s input alloc with h | h | h
  · rw [h]
  · rw [h, tcpSendEmptyAck]
    split_ifs <;> rfl
  · rw [h, outputDone]
    show (if _ then _ else _ : Pcb).state = _
    split_ifs <;> exact outputLoop_state

theorem tcpOutput_evolves (input alloc : Bool) : Evolves isn aim s (s.tcpOutput input alloc) :=
  (tcpOutput_carries input alloc).evolves (tcpOutput_state input alloc)

/-! ### Closing -/

/-- A connection that is closed this way ends with a reset. -/
def ResetOnClose (s : Pcb) : Prop :=
  (s.state = .established ∨ s.state = .closeWait) ∧
    (s.refusedData.isSome = true ∨ s.rcvWnd ≠ tcpWnd)

instance : Decidable s.ResetOnClose := inferInstanceAs (Decidable (_ ∧ _))

/-- Where the `FIN` may go: without an aim beyond the bytes anywhere; else not to a plain segment that is
not the last one of the stream, and for the order to no plain segment at all, since `snd_lbb` is not
moved on then. -/
def FinGoesLast (aim : Aim) (s : Pcb) : Prop :=
  aim = .bytes ∨ ∀ last ∈ s.unsent.getLast?,
    last.syn = true ∨ last.fin = true ∨ (aim = .fin ∧ last.endSeq = s.sndLbb)

instance : Decidable (FinGoesLast aim s) := inferInstanceAs (Decidable (_ ∨ _))

/-- The states in which closing sends a `FIN`. -/
def ClosesWithFin (s : Pcb) : Prop :=
  s.state = .synRcvd ∨ s.state = .established ∨ s.state = .closeWait

instance : Decidable s.ClosesWithFin := inferInstanceAs (Decidable (_ ∨ _))

theorem tcpSendFin_fails {alloc : Bool} (h : (s.tcpSendFin alloc).1 ≠ .ok) :
    Quiet s (s.tcpSendFin alloc).2 := by
  have henqueue : (s.tcpEnqueueFlags false true alloc).1 ≠ .ok →
      Quiet s (s.tcpEnqueueFlags false true alloc).2 := by
    intro hne
    rw [tcpEnqueueFlags] at hne ⊢
    split_ifs at hne ⊢
    · exact ⟨rfl, rfl, rfl⟩
    · exact .refl
    · exact ⟨rfl, rfl, rfl⟩
    · exact absurd rfl hne
  rw [tcpSendFin] at h ⊢
  rcases hlast : s.unsent.getLast? with - | seg <;> rw [hlast] at h
  · exact henqueue h
  · dsimp only at h ⊢
    split_ifs at h ⊢ with hplain
    · exact absurd rfl h
    · exact henqueue h

/-- The `FIN` and the new state of `tcp_close_shutdown`. -/
theorem sendFin_evolves {alloc ack input : Bool} {state : TcpState} {r : Err × Pcb}
    (hr : r = if (s.tcpSendFin alloc).1 = .ok then
      (.ok, tcpOutput { (s.tcpSendFin alloc).2 with state := state } input ack)
      else s.tcpSendFin alloc)
    (hstate : state.finQueued = true) (hopen : s.ClosesWithFin) (hfin : FinGoesLast aim s) :
    Evolves isn aim s r.2 := by
  subst hr
  have hopen' : s.state.finQueued = false ∧ s.state.within aim = true := by
    rcases hopen with h | h | h <;> rw [h] <;> exact ⟨rfl, rfl⟩
  split_ifs with hok
  · refine Evolves.trans ?_ (tcpOutput_evolves input ack)
    intro hs'
    refine ⟨hopen'.2, tcpSendFin_carries (Prod.ext hok rfl) hopen'.1 hstate fun last hlast ↦ ?_⟩
    have haim : aim ≠ .bytes := by
      rintro rfl
      cases state <;> simp_all [TcpState.finQueued, TcpState.within]
    rcases (hfin.resolve_left haim) last hlast with h | h | ⟨rfl, h⟩
    · exact Or.inl h
    · exact Or.inr (Or.inl h)
    · exact Or.inr (Or.inr ⟨by simp, h⟩)
  · exact (tcpSendFin_fails hok).evolves

theorem tcpCloseShutdown_evolves {rst input alloc ack : Bool} {r : Err × Pcb}
    (h : s.tcpCloseShutdown rst input alloc ack = some r)
    (hfin : s.ClosesWithFin → rst = true ∧ s.ResetOnClose ∨ FinGoesLast aim s) :
    Evolves isn aim s r.2 := by
  rw [tcpCloseShutdown] at h
  by_cases hreset : rst = true ∧ (s.state = .established ∨ s.state = .closeWait) ∧
      (s.refusedData.isSome = true ∨ s.rcvWnd ≠ tcpWnd)
  · rw [if_pos hreset] at h
    split_ifs at h <;> obtain rfl := Option.some.inj h <;> exact .gone rfl
  · rw [if_neg hreset] at h
    have hlast : s.ClosesWithFin → FinGoesLast aim s := fun hc ↦ (hfin hc).resolve_left hreset
    rcases hs : s.state <;> rw [hs] at h <;> obtain rfl := Option.some.inj h
    case synSent => exact .gone rfl
    case synRcvd => exact sendFin_evolves rfl rfl (Or.inl hs) (hlast (Or.inl hs))
    case established =>
      exact sendFin_evolves rfl rfl (Or.inr (Or.inl hs)) (hlast (Or.inr (Or.inl hs)))
    case closeWait =>
      exact sendFin_evolves rfl rfl (Or.inr (Or.inr hs)) (hlast (Or.inr (Or.inr hs)))
    all_goals exact .refl

/-! ### Calls of the application -/

/-- What a call must keep to. -/
def CallKeeps (aim : Aim) (s : Pcb) : Call → Prop
  | .write arg _ _ _ =>
    (s.tcpWriteChecks arg.length).map Prod.fst = some .ok → s.ExtendsLast arg.length
  | .close _ _ => s.ClosesWithFin → s.ResetOnClose ∨ FinGoesLast aim s
  | .shutdown shutRx shutTx _ _ =>
    shutTx = true → s.ClosesWithFin → shutRx = true ∧ s.ResetOnClose ∨ FinGoesLast aim s
  | _ => True

theorem tcpShutdown_evolves {shutRx shutTx input alloc ack : Bool} {r : Err × Pcb}
    (h : s.tcpShutdown shutRx shutTx input alloc ack = some r)
    (hfin : shutTx = true → s.ClosesWithFin → shutRx = true ∧ s.ResetOnClose ∨ FinGoesLast aim s) :
    Evolves isn aim s r.2 := by
  rw [tcpShutdown] at h
  by_cases hboth : shutRx = true ∧ shutTx = true
  · rw [if_pos hboth] at h
    have hquiet : Quiet s { s with rxClosed := true } := ⟨rfl, rfl, rfl⟩
    refine hquiet.evolves.trans (tcpCloseShutdown_evolves h fun hc ↦ ?_)
    exact (hfin hboth.2 hc).imp_left fun hr ↦ ⟨rfl, hr.2⟩
  · rw [if_neg hboth] at h
    generalize hu : (if shutRx = true then { s with rxClosed := true, refusedData := none } else s) = u
      at h
    have hquiet : Quiet s u := by
      rw [← hu]
      split_ifs <;> exact ⟨rfl, rfl, rfl⟩
    dsimp only at h
    refine hquiet.evolves.trans ?_
    split_ifs at h with htx
    · have hrx : shutRx ≠ true := fun hrx ↦ hboth ⟨hrx, htx⟩
      rw [if_neg hrx] at hu
      subst hu
      rcases hs : s.state <;> rw [hs] at h
      case synRcvd | established | closeWait =>
        exact tcpCloseShutdown_evolves h fun hc ↦ Or.inr ((hfin htx hc).resolve_left fun hr ↦ hrx hr.1)
      all_goals
        obtain rfl := Option.some.inj h
        exact .refl
    · obtain rfl := Option.some.inj h
      exact .refl

theorem tcpRecved_evolves {len : ℕ} {input ack : Bool} (h : s.tcpRecved len input ack = some s') :
    Evolves isn aim s s' := by
  rw [tcpRecved] at h
  split_ifs at h
  obtain ⟨r, hr, rfl⟩ := Option.map_eq_some_iff.1 h
  have hquiet := tcpUpdateRcvAnnWnd_quiet hr
  have hwnd : Quiet s r.2 := ⟨hquiet.sendSide, hquiet.state, hquiet.sent⟩
  refine hwnd.evolves.trans ?_
  dsimp only
  split_ifs
  · have hack : Quiet r.2 { r.2 with ackNow := true } := ⟨rfl, rfl, rfl⟩
    exact hack.evolves.trans (tcpOutput_evolves input ack)
  · exact .refl

theorem appCall_evolves {input : Bool} {c : Call} (h : s.appCall input c = some s')
    (hkeeps : CallKeeps aim s c) : Evolves isn aim s s' := by
  unfold appCall at h
  split_ifs at h with hclosed
  rcases c with ⟨arg, copy, more, alloc⟩ | ⟨alloc, ack⟩ | ⟨shutRx, shutTx, alloc, ack⟩ | ⟨len, ack⟩ |
    ack | on | ack
  · obtain ⟨r, hr, rfl⟩ := Option.map_eq_some_iff.1 h
    obtain ⟨hc, hst⟩ := tcpWrite_carries hr hkeeps
    exact hc.evolves hst
  · obtain ⟨r, hr, rfl⟩ := Option.map_eq_some_iff.1 h
    have hquiet : Quiet s { s with rxClosed := true } := ⟨rfl, rfl, rfl⟩
    exact hquiet.evolves.trans (tcpCloseShutdown_evolves hr fun hc ↦
      (hkeeps hc).imp_left fun hreset ↦ ⟨rfl, hreset⟩)
  · obtain ⟨r, hr, rfl⟩ := Option.map_eq_some_iff.1 h
    exact tcpShutdown_evolves hr hkeeps
  · exact tcpRecved_evolves h
  · obtain rfl := Option.some.inj h
    exact tcpOutput_evolves input ack
  · obtain rfl := Option.some.inj h
    exact Quiet.evolves ⟨rfl, rfl, rfl⟩
  · obtain rfl := Option.some.inj h
    exact .gone rfl

/-- What the calls of a callback must keep to, each in the state that it is made in. -/
def CallsKeep (aim : Aim) (input : Bool) : List Call → Pcb → Prop
  | [], _ => True
  | c :: cs, s => CallKeeps aim s c ∧ ∀ s' ∈ s.appCall input c, CallsKeep aim input cs s'

/-! ### Before the connection is established -/

/-- What is known before the connection is established. In `SYN_SENT` nothing has been written, since the
window is not known; in `SYN_RCVD` nothing has arrived. -/
structure Opening (isn : SeqNum) (s : Pcb) : Prop where
  synSent : s.state = .synSent → s.written = [] ∧ s.sndWndMax = 0 ∧ s.lastack = isn
  synRcvd : s.state = .synRcvd → s.ooseq = []

/-- A step that ends in one of these states does not touch what `Opening` is about. -/
structure Idle (s s' : Pcb) : Prop where
  synSent : s'.state = .synSent → s.state = .synSent ∧ s'.written = s.written ∧
    s'.sndWndMax = s.sndWndMax ∧ s'.lastack = s.lastack
  synRcvd : s'.state = .synRcvd → s.state = .synRcvd ∧ (s.ooseq = [] → s'.ooseq = [])

theorem Idle.opening (h : Idle s s') (ho : Opening isn s) : Opening isn s' where
  synSent := by
    intro hs'
    obtain ⟨hs, hw, hm, hl⟩ := h.synSent hs'
    rw [hw, hm, hl]
    exact ho.synSent hs
  synRcvd := by
    intro hs'
    obtain ⟨hs, hq⟩ := h.synRcvd hs'
    exact hq (ho.synRcvd hs)

theorem Idle.trans (h : Idle s t) (h' : Idle t s') : Idle s s' where
  synSent := by
    intro hs'
    obtain ⟨ht, hw', hm', hl'⟩ := h'.synSent hs'
    obtain ⟨hs, hw, hm, hl⟩ := h.synSent ht
    exact ⟨hs, hw'.trans hw, hm'.trans hm, hl'.trans hl⟩
  synRcvd := by
    intro hs'
    obtain ⟨ht, hq'⟩ := h'.synRcvd hs'
    obtain ⟨hs, hq⟩ := h.synRcvd ht
    exact ⟨hs, fun hnil ↦ hq' (hq hnil)⟩

theorem Idle.of_eq (hstate : s'.state = s.state) (hwritten : s'.written = s.written)
    (hmax : s'.sndWndMax = s.sndWndMax) (hlast : s'.lastack = s.lastack) (hq : s'.ooseq = s.ooseq) :
    Idle s s' :=
  ⟨fun hs' ↦ ⟨hstate ▸ hs', hwritten, hmax, hlast⟩, fun hs' ↦ ⟨hstate ▸ hs', fun h ↦ hq.trans h⟩⟩

theorem Idle.refl : Idle s s := .of_eq rfl rfl rfl rfl rfl

/-- A step that leaves these states. -/
theorem Idle.gone (state : TcpState) (h : s'.state = state) (hsent : state ≠ .synSent)
    (hrcvd : state ≠ .synRcvd) : Idle s s' :=
  ⟨fun hs' ↦ absurd (h.symm.trans hs') hsent, fun hs' ↦ absurd (h.symm.trans hs') hrcvd⟩

theorem outputOne_idle (seg : TcpSeg) (rest : List TcpSeg) : Idle s (s.outputOne seg rest) := by
  simp only [outputOne, tcpOutputSegment, emit]
  split_ifs <;> exact .of_eq rfl rfl rfl rfl rfl

theorem outputLoop_idle {wnd : ℕ} {q : List TcpSeg} : Idle s (outputLoop wnd q s) := by
  induction q generalizing s with
  | nil => exact .refl
  | cons seg rest ih =>
    rw [outputLoop]
    split_ifs
    · exact .refl
    · exact (outputOne_idle seg rest).trans ih
    · exact .refl

theorem tcpOutput_idle (input alloc : Bool) : Idle s (s.tcpOutput input alloc) := by
  rcases tcpOutput_cases s input alloc with h | h | h
  · rw [h]
    exact .refl
  · rw [h, tcpSendEmptyAck]
    split_ifs <;> exact .of_eq rfl rfl rfl rfl rfl
  · rw [h]
    refine Idle.trans (t := outputLoop (min s.sndWnd s.cwnd) s.unsent s) outputLoop_idle ?_
    rw [outputDone]
    split_ifs <;> exact .of_eq rfl rfl rfl rfl rfl

theorem byteAt_nil (q : ℕ) : byteAt [] q = none := by
  cases q <;> rfl

/-- Nothing that was written, no byte on a tile. -/
theorem data_eq_nil {L : Layout} {x : Tile} (hq : Queues isn s.sendSide L)
    (hx : x ∈ L.unacked ++ L.again ++ L.fresh) (hw : s.written = []) : x.seg.data = [] := by
  rcases hdata : x.seg.data with - | ⟨b, bs⟩
  · rfl
  · have hb := (hq.ok x hx).bytes 0 b (by rw [hdata]; rfl)
    have hw' : s.sendSide.written = [] := hw
    rw [hw', byteAt_nil] at hb
    cases hb

/-- In `SYN_SENT` nothing can be written. -/
theorem tcpWrite_opening {arg : List Byte} {copy more : Bool} {alloc : ℕ → Bool}
    {r : Err × Pcb} (h : s.tcpWrite arg copy more alloc = some r)
    (hq : s.state = .synSent → ∃ L, Queues isn s.sendSide L) (ho : Opening isn s) :
    Opening isn r.2 := by
  have hidle : ∀ {u : Pcb}, Quiet s u → u.sndWndMax = s.sndWndMax ∧ u.ooseq = s.ooseq →
      Opening isn u := fun hquiet hkept ↦
    (Idle.of_eq hquiet.state (congrArg SendSide.written hquiet.sendSide) hkept.1
      (congrArg SendSide.lastack hquiet.sendSide) hkept.2).opening ho
  obtain ⟨-, hquiet, hkept⟩ | ⟨-, -, -, h⟩ := tcpWrite_cases h
  · exact hidle hquiet hkept
  obtain ⟨hkept, ⟨-, hquiet⟩ | ⟨pos, clen, oversize, segs, len, hpos, -, -, hsegs, -, hmove⟩⟩ :=
    writeChecked_cases h
  · exact hidle hquiet hkept
  refine ⟨fun hs' ↦ ?_, fun hs' ↦ hkept.2.trans (ho.synRcvd (hmove.state ▸ hs'))⟩
  obtain ⟨hw, hm, hl⟩ := ho.synSent (hmove.state ▸ hs')
  obtain ⟨L, hq⟩ := hq (hmove.state ▸ hs')
  have hwritten : r.2.written = s.written ++ arg := congrArg SendSide.written hmove.sendSide
  have hlast : r.2.lastack = s.lastack := congrArg SendSide.lastack hmove.sendSide
  rw [hkept.1, hlast, hwritten, hw]
  refine ⟨?_, hm, hl⟩
  -- no segment is extended, and no segment is made
  have hext : s.extension arg.length = ⟨0, 0⟩ := by
    rcases List.eq_nil_or_concat' s.unsent with hnil | ⟨qs, last, hs⟩
    · rw [extension, hnil]
      rfl
    · obtain ⟨x, rfl, hx⟩ := hq.last_tile hs
      have hxm : x ∈ L.unacked ++ L.again ++ L.fresh := by
        rcases hx with ⟨F, hF, -⟩ | ⟨-, R, hR, -⟩
        · simp [hF]
        · simp [hR]
      exact extension_syn hs (hq.oversize hw) (by rw [TcpSeg.len, data_eq_nil hq hxm hw]; rfl)
  have hmss : s.mssLocal = 0 := by
    rw [mssLocal, hm]
    exact Nat.min_zero _
  have hzero : pos = 0 := by
    rw [hpos, hext]
    rfl
  rw [hzero] at hsegs
  rcases arg with - | ⟨b, bs⟩
  · rfl
  · rw [List.drop_zero, newSegs_eq_none hmss] at hsegs
    cases hsegs

theorem tcpSendFin_idle {alloc : Bool} (h : (s.tcpSendFin alloc).1 ≠ .ok) :
    Idle s (s.tcpSendFin alloc).2 := by
  have henqueue : Idle s (s.tcpEnqueueFlags false true alloc).2 := by
    rw [tcpEnqueueFlags]
    split_ifs <;> exact .of_eq rfl rfl rfl rfl rfl
  rw [tcpSendFin] at h ⊢
  rcases hlast : s.unsent.getLast? with - | seg <;> rw [hlast] at h
  · exact henqueue
  · dsimp only at h ⊢
    split_ifs at h ⊢
    · exact absurd rfl h
    · exact henqueue

theorem tcpCloseShutdown_idle {rst input alloc ack : Bool} {r : Err × Pcb}
    (h : s.tcpCloseShutdown rst input alloc ack = some r) : Idle s r.2 := by
  have hfin : ∀ state : TcpState, state ≠ .synSent → state ≠ .synRcvd →
      Idle s (if (s.tcpSendFin alloc).1 = .ok then
        (Err.ok, tcpOutput { (s.tcpSendFin alloc).2 with state := state } input ack)
        else s.tcpSendFin alloc).2 := by
    intro state hsent hrcvd
    split_ifs with hok
    · exact .gone state (tcpOutput_state input ack) hsent hrcvd
    · exact tcpSendFin_idle hok
  rw [tcpCloseShutdown] at h
  split_ifs at h
  · obtain rfl := Option.some.inj h
    exact .gone .timeWait rfl (by decide) (by decide)
  · obtain rfl := Option.some.inj h
    exact .gone .closed rfl (by decide) (by decide)
  · rcases hs : s.state <;> rw [hs] at h <;> obtain rfl := Option.some.inj h
    case synSent => exact .gone .closed rfl (by decide) (by decide)
    case synRcvd | established => exact hfin .finWait1 (by decide) (by decide)
    case closeWait => exact hfin .lastAck (by decide) (by decide)
    all_goals exact .refl

theorem tcpShutdown_idle {shutRx shutTx input alloc ack : Bool} {r : Err × Pcb}
    (h : s.tcpShutdown shutRx shutTx input alloc ack = some r) : Idle s r.2 := by
  rw [tcpShutdown] at h
  by_cases hboth : shutRx = true ∧ shutTx = true
  · rw [if_pos hboth] at h
    have hidle : Idle s { s with rxClosed := true } := .of_eq rfl rfl rfl rfl rfl
    exact hidle.trans (tcpCloseShutdown_idle h)
  · rw [if_neg hboth] at h
    generalize hu : (if shutRx = true then { s with rxClosed := true, refusedData := none } else s) = u
      at h
    have hidle : Idle s u := by
      rw [← hu]
      split_ifs <;> exact .of_eq rfl rfl rfl rfl rfl
    refine hidle.trans ?_
    dsimp only at h
    split_ifs at h
    · rcases hs : u.state <;> rw [hs] at h
      case synRcvd | established | closeWait => exact tcpCloseShutdown_idle h
      all_goals
        obtain rfl := Option.some.inj h
        exact .refl
    · obtain rfl := Option.some.inj h
      exact .refl

theorem tcpUpdateRcvAnnWnd_idle {r : SeqNum × Pcb} (h : s.tcpUpdateRcvAnnWnd = some r) :
    Idle s r.2 := by
  rw [tcpUpdateRcvAnnWnd] at h
  dsimp only at h
  split_ifs at h <;> obtain rfl := Option.some.inj h <;> exact .of_eq rfl rfl rfl rfl rfl

theorem tcpRecved_idle {len : ℕ} {input ack : Bool} (h : s.tcpRecved len input ack = some s') :
    Idle s s' := by
  rw [tcpRecved] at h
  split_ifs at h
  obtain ⟨r, hr, rfl⟩ := Option.map_eq_some_iff.1 h
  have hwnd : Idle s { s with rcvWnd := min (s.rcvWnd + len) tcpWnd } := .of_eq rfl rfl rfl rfl rfl
  refine hwnd.trans ((tcpUpdateRcvAnnWnd_idle hr).trans ?_)
  dsimp only
  split_ifs
  · have hack : Idle r.2 { r.2 with ackNow := true } := .of_eq rfl rfl rfl rfl rfl
    exact hack.trans (tcpOutput_idle input ack)
  · exact .refl

/-! ### What holds of the send queues -/

/-- **The invariant.** The send queues, as long as they are looked at, hold tiles of the stream, in order
or with the `FIN` where the aim says so. -/
structure Sane (isn : SeqNum) (aim : Aim) (s : Pcb) : Prop where
  opening : Opening isn s
  layout : s.state.within aim = true → ∃ L, Holds isn s L ∧
    (aim = .order → InOrder isn s.sendSide L) ∧ (aim = .fin → FinKept s L)

theorem Sane.evolve (h : Sane isn aim s) (he : Evolves isn aim s s') (ho : Opening isn s') :
    Sane isn aim s' where
  opening := ho
  layout := by
    intro hs'
    obtain ⟨hs, hc⟩ := he hs'
    obtain ⟨L, hL, hin, hk⟩ := h.layout hs
    obtain ⟨L', hL', hin', hk'⟩ := hc L hL
    exact ⟨L', hL', fun ha ↦ hin' ha (hin ha), fun ha ↦ hk' ha (hk ha)⟩

theorem Sane.step (h : Sane isn aim s) (he : Evolves isn aim s s') (hi : Idle s s') :
    Sane isn aim s' :=
  h.evolve he (hi.opening h.opening)

/-- A call of the application keeps the invariant. -/
theorem Sane.appCall {input : Bool} {c : Call} (h : Sane isn aim s) (hc : s.appCall input c = some s')
    (hkeeps : CallKeeps aim s c) : Sane isn aim s' := by
  refine h.evolve (appCall_evolves hc hkeeps) ?_
  unfold Pcb.appCall at hc
  split_ifs at hc with hclosed
  rcases c with ⟨arg, copy, more, alloc⟩ | ⟨alloc, ack⟩ | ⟨shutRx, shutTx, alloc, ack⟩ | ⟨len, ack⟩ |
    ack | on | ack
  · obtain ⟨r, hr, rfl⟩ := Option.map_eq_some_iff.1 hc
    refine tcpWrite_opening hr (fun hs ↦ ?_) h.opening
    obtain ⟨L, hL, -⟩ := h.layout (by rw [hs]; rfl)
    exact ⟨L, hL.queues⟩
  · obtain ⟨r, hr, rfl⟩ := Option.map_eq_some_iff.1 hc
    have hidle : Idle s { s with rxClosed := true } := .of_eq rfl rfl rfl rfl rfl
    exact (hidle.trans (tcpCloseShutdown_idle hr)).opening h.opening
  · obtain ⟨r, hr, rfl⟩ := Option.map_eq_some_iff.1 hc
    exact (tcpShutdown_idle hr).opening h.opening
  · exact (tcpRecved_idle hc).opening h.opening
  · obtain rfl := Option.some.inj hc
    exact (tcpOutput_idle input ack).opening h.opening
  · obtain rfl := Option.some.inj hc
    have hidle : Idle s { s with nodelay := on } := .of_eq rfl rfl rfl rfl rfl
    exact hidle.opening h.opening
  · obtain rfl := Option.some.inj hc
    exact (Idle.gone .closed rfl (by decide) (by decide)).opening h.opening

/-- The calls of a callback keep the invariant. -/
theorem Sane.appCalls {input : Bool} {cs : List Call} (h : Sane isn aim s)
    (hc : s.appCalls input cs = some s') (hkeeps : CallsKeep aim input cs s) : Sane isn aim s' := by
  induction cs generalizing s with
  | nil =>
    obtain rfl := Option.some.inj hc
    exact h
  | cons c cs ih =>
    obtain ⟨u, hu, hc⟩ := Option.bind_eq_some_iff.1 hc
    exact ih (h.appCall hu hkeeps.1) hc (hkeeps.2 u hu)

end Pcb

end Lwip.Tcp
