import LwipPoc.Tcp.Accounts

/-!
# The accounts of a connection, step by step

Every step of a run edits the accounts of the control block. What the application does comes first, and
then the data of the segment that is being processed is looked at (`Conn.step_edits`); an acknowledgement
number is taken only from that segment, and only if it is new (`Acceptable`).

The functions of the API and `tcp_receive` are also called in the middle of a step, when the application
is told that a connection has been established. The control blocks that they are called on are reached by
edits as well (`Conn.Entered`).
-/

namespace Lwip.Tcp

namespace Pcb

open Accounts (Edit Edits)

variable {acks : SeqNum → Prop} {data : Prop} {s t s' : Pcb}

/-! ### Acknowledgements -/

theorem updateWindow_edits (g : InSeg) (hstate : s.state ≠ .synSent) :
    Edits acks data s.accounts (s.updateWindow g).accounts := by
  refine iteInduction (motive := fun u : Pcb ↦ Edits acks data s.accounts u.accounts)
    (fun _ ↦ ?_) fun _ ↦ .refl
  exact (Edit.window s.accounts g.wnd _ hstate g.wnd_lt).edits

theorem countDupack_accounts : s.countDupack.accounts = s.accounts := by
  rw [countDupack]
  split_ifs <;> rfl

theorem inflateCwnd_accounts : s.inflateCwnd.accounts = s.accounts := by
  rw [inflateCwnd]
  split_ifs <;> rfl

theorem growCwnd_accounts : s.growCwnd.accounts = s.accounts := by
  rw [growCwnd]
  split_ifs
  · exact inflateCwnd_accounts
  · dsimp only
    split_ifs <;> rfl

theorem estimateRtt_accounts (ackno : SeqNum) : (s.estimateRtt ackno).accounts = s.accounts :=
  iteInduction (motive := fun u : Pcb ↦ u.accounts = s.accounts) (fun _ ↦ rfl) fun _ ↦ rfl

theorem duplicateAck_edits (g : InSeg) (edge : SeqNum) :
    Edits acks data s.accounts (s.duplicateAck g edge).accounts := by
  have hcount : { s with acked := 0 }.countDupack.accounts = s.accounts := countDupack_accounts
  rw [duplicateAck]
  dsimp only
  split_ifs
  · exact .of_eq (inflateCwnd_accounts.trans hcount)
  · exact edits_of_same hcount tcpRexmitFast_edits
  · exact .of_eq hcount
  · exact .of_eq rfl

theorem freeAcked_accounts {seg : TcpSeg} (h : s.freeAcked seg = some s') :
    seg.clen ≤ s.sndQueuelen ∧
      s'.accounts = { s.accounts with sndQueuelen := s.sndQueuelen - seg.clen } := by
  rw [freeAcked] at h
  simp only [Option.ite_none_left_eq_some, Option.some.injEq] at h
  obtain ⟨hlen, -, rfl⟩ := h
  exact ⟨by omega, rfl⟩

theorem ackUnacked_accounts {ackno : SeqNum} {q : List TcpSeg} (hs : s.unacked = q)
    (h : ackUnacked ackno q s = some s') :
    ∃ p u, q = p ++ u ∧ clens p ≤ s.sndQueuelen ∧ (∀ seg ∈ p, SeqLeq seg.endSeq ackno) ∧
      (∀ seg ∈ u.head?, ¬SeqLeq seg.endSeq ackno) ∧
      s'.accounts = { s.accounts with sndQueuelen := s.sndQueuelen - clens p, unacked := u } := by
  induction q generalizing s with
  | nil =>
    obtain rfl := Option.some.inj h
    refine ⟨[], [], rfl, Nat.zero_le _, by simp, by simp, ?_⟩
    show s.accounts = { s.accounts with unacked := [] }
    rw [← hs]
    rfl
  | cons seg rest ih =>
    rw [ackUnacked] at h
    split_ifs at h with hacked
    · obtain ⟨v, hv, h⟩ := Option.bind_eq_some_iff.1 h
      obtain ⟨hlen, hacc⟩ := freeAcked_accounts hv
      have hqueuelen : v.sndQueuelen = s.sndQueuelen - seg.clen := congrArg Accounts.sndQueuelen hacc
      obtain ⟨p, u, rfl, hp, hcovered, hhead, hacc'⟩ := ih (congrArg Accounts.unacked hacc) h
      refine ⟨seg :: p, u, rfl, ?_, ?_, hhead, ?_⟩
      · rw [clens_cons]
        dsimp only at hlen
        omega
      · simpa using ⟨hacked, hcovered⟩
      · rw [hacc', hacc, hqueuelen, clens_cons, Nat.sub_sub]
        rfl
    · obtain rfl := Option.some.inj h
      exact ⟨[], seg :: rest, rfl, Nat.zero_le _, by simp, by simpa using hacked, by rw [← hs]; rfl⟩

theorem ackUnsent_accounts {ackno : SeqNum} {q : List TcpSeg} (hs : s.unsent = q)
    (h : ackUnsent ackno q s = some s') :
    ∃ p u oversize, q = p ++ u ∧ clens p ≤ s.sndQueuelen ∧
      s'.accounts = { s.accounts with
        sndQueuelen := s.sndQueuelen - clens p, unsent := u, unsentOversize := oversize } := by
  induction q generalizing s with
  | nil =>
    obtain rfl := Option.some.inj h
    refine ⟨[], [], s.unsentOversize, rfl, Nat.zero_le _, ?_⟩
    show s.accounts = { s.accounts with unsent := [] }
    rw [← hs]
    rfl
  | cons seg rest ih =>
    rw [ackUnsent] at h
    by_cases hacked : SeqBetween ackno seg.endSeq s.sndNxt
    · rw [if_pos hacked] at h
      obtain ⟨v, hv, h⟩ := Option.bind_eq_some_iff.1 h
      obtain ⟨hlen, hacc⟩ := freeAcked_accounts hv
      have hqueuelen : v.sndQueuelen = s.sndQueuelen - seg.clen := congrArg Accounts.sndQueuelen hacc
      obtain ⟨p, u, oversize, rfl, hp, hacc'⟩ := ih (congrArg Accounts.unsent hacc) h
      refine ⟨seg :: p, u, oversize, rfl, ?_, ?_⟩
      · rw [clens_cons]
        dsimp only at hlen
        omega
      · rw [hacc', hacc, hqueuelen, clens_cons, Nat.sub_sub]
        rfl
    · rw [if_neg hacked] at h
      obtain rfl := Option.some.inj h
      exact ⟨[], seg :: rest, _, rfl, Nat.zero_le _, by rw [← hs]; rfl⟩

theorem countAcked_accounts (ackno : SeqNum) :
    (s.countAcked ackno).accounts = { s.accounts with
      lastack := ackno
      sndBuf := toU16 (s.sndBuf + toU16 (ackno - s.lastack).toNat) } := by
  rw [countAcked]
  dsimp only
  rw [growCwnd_accounts]
  split_ifs <;> rfl

theorem newAck_edits {ackno : SeqNum} (h : s.newAck ackno = some s') (hstate : s.state ≠ .synSent)
    (hacks : acks ackno) (hold : ¬SeqLeq ackno s.lastack)
    (hnew : SeqBetween ackno (s.lastack + 1) s.sndNxt) : Edits acks data s.accounts s'.accounts := by
  have hcount := countAcked_accounts (s := s) ackno
  obtain ⟨v, hv, rfl⟩ := Option.map_eq_some_iff.1 h
  obtain ⟨p, u, hq, hp, hcovered, hhead, hacc⟩ := ackUnacked_accounts rfl hv
  have hqueuelen : (s.countAcked ackno).sndQueuelen = s.sndQueuelen :=
    congrArg Accounts.sndQueuelen hcount
  have hunacked : (s.countAcked ackno).unacked = s.unacked := congrArg Accounts.unacked hcount
  rw [hqueuelen] at hp hacc
  rw [hcount] at hacc
  have hedit : Edit acks data s.accounts _ := Edit.ack s.accounts ackno p u hstate hacks hnew (hunacked.symm.trans hq)
    hcovered hhead hp hold
  exact Relation.ReflTransGen.trans hedit.edits (Edits.of_eq hacc)

/-- What an acknowledgement number has to be so that it is taken. -/
def Acceptable (s : Pcb) (g : InSeg) : Prop :=
  g.ack = true ∧ SeqBetween g.ackno (s.lastack + 1) s.sndNxt

instance (s : Pcb) (g : InSeg) : Decidable (s.Acceptable g) := inferInstanceAs (Decidable (_ ∧ _))

/-- The acknowledgement number of a segment is taken. -/
def TakesAck (s : Pcb) (g : InSeg) : Prop :=
  g.rst = false ∧ (s.state = .synRcvd ∨ s.state.synchronized = true ∧ g.syn = false) ∧ s.Acceptable g

instance (s : Pcb) (g : InSeg) : Decidable (s.TakesAck g) := inferInstanceAs (Decidable (_ ∧ _))

theorem receiveAck_edits {g : InSeg} (h : s.receiveAck g = some s') (hstate : s.state ≠ .synSent)
    (hacks : SeqBetween g.ackno (s.lastack + 1) s.sndNxt → acks g.ackno) :
    Edits acks data s.accounts s'.accounts := by
  rw [receiveAck] at h
  obtain ⟨u, hu, h⟩ := Option.bind_eq_some_iff.1 h
  obtain ⟨v, hv, rfl⟩ := Option.map_eq_some_iff.1 h
  have hwindow : Edits acks data s.accounts (s.updateWindow g).accounts := updateWindow_edits g hstate
  have hsame := updateWindow_receiver (s := s) g
  have hupdate : (s.updateWindow g).lastack = s.lastack ∧ (s.updateWindow g).sndNxt = s.sndNxt := by
    rw [updateWindow]
    split_ifs <;> exact ⟨rfl, rfl⟩
  have hack : Edits acks data s.accounts u.accounts ∧ u.state = s.state := by
    split_ifs at hu with hold hnew
    · obtain rfl := Option.some.inj hu
      exact ⟨hwindow.trans (duplicateAck_edits g _), (duplicateAck_receiver g _).state.trans hsame.state⟩
    · refine ⟨hwindow.trans (newAck_edits hu (by rwa [hsame.state]) (hacks ?_) hold hnew),
        (newAck_receiver hu).state.trans hsame.state⟩
      rwa [hupdate.1, hupdate.2] at hnew
    · obtain rfl := Option.some.inj hu
      exact ⟨hwindow, hsame.state⟩
  obtain ⟨p, q, oversize, hq, hp, hacc⟩ := ackUnsent_accounts rfl hv
  have htrim : Edit acks data u.accounts _ := Edit.trim u.accounts p q oversize
    (show u.state ≠ _ by rwa [hack.2]) hq hp
  refine (hack.1.tail htrim).trans (Edits.of_eq ?_)
  rw [estimateRtt_accounts, hacc]
  rfl

/-! ### Data -/

theorem trimToWindow_seqno {rcvNxt : SeqNum} {rcvWnd : ℕ} {inseg i : OoSeg}
    (h : trimToWindow rcvNxt rcvWnd inseg = some i) : i.seqno = inseg.seqno := by
  rw [trimToWindow] at h
  dsimp only at h
  split_ifs at h <;> obtain rfl := Option.some.inj h <;> rfl

theorem dropCovered_seqno (inseg : OoSeg) (q : List OoSeg) :
    (dropCovered inseg q).1.seqno = inseg.seqno := by
  induction q generalizing inseg with
  | nil => rfl
  | cons next rest ih =>
    rw [dropCovered]
    split_ifs
    · exact ih _
    · exact ih _
    · rfl

/-- Cutting a segment leaves where it starts. -/
theorem seqno_cut (inseg : OoSeg) (len : ℕ) (p : List Byte) :
    ({ inseg with len := len, p := p } : OoSeg).seqno = inseg.seqno := rfl

theorem trimToOoseq_seqno {q : List OoSeg} {inseg : OoSeg} {r : OoSeg × List OoSeg}
    (h : trimToOoseq q inseg = some r) : r.1.seqno = inseg.seqno := by
  have hcovered := dropCovered_seqno inseg q
  rw [trimToOoseq] at h
  split_ifs at h
  · obtain rfl := Option.some.inj h
    rfl
  · split at h
    · rename_i heq
      obtain rfl := Option.some.inj h
      rwa [heq] at hcovered
    · rename_i heq
      rw [heq] at hcovered
      dsimp only at h
      split_ifs at h <;> obtain rfl := Option.some.inj h
      · exact (seqno_cut _ _ _).trans hcovered
      · exact (seqno_cut _ _ _).trans hcovered
      · exact hcovered

theorem acceptSeg_edits {seqno : SeqNum} {tcplen : ℕ} (h : s.acceptSeg seqno tcplen = some s')
    (hseq : seqno = s.rcvNxt) (hdata : data) : Edits acks data s.accounts s'.accounts := by
  rw [acceptSeg] at h
  split_ifs at h with hlen
  obtain ⟨r, hr, rfl⟩ := Option.map_eq_some_iff.1 h
  obtain ⟨wnd, heq, hwnd⟩ := tcpUpdateRcvAnnWnd_announces hr
  rw [heq, hseq]
  rw [hseq] at hwnd
  exact (Edit.accept s.accounts tcplen _ wnd hdata hlen
    ((Nat.min_le_left (tcpWnd / 2) s.mss).trans (Nat.div_le_self ..)) hwnd).edits

theorem splice_edits {q : List OoSeg} {r : Received} {r' : Pcb × Received}
    (h : splice q s r = some r') (hdata : data) : Edits acks data s.accounts r'.1.accounts := by
  induction q generalizing s r with
  | nil =>
    obtain rfl := Option.some.inj h
    exact .refl
  | cons cseg rest ih =>
    rw [splice] at h
    split_ifs at h with hseq
    · obtain ⟨u, hu, h⟩ := Option.bind_eq_some_iff.1 h
      refine (acceptSeg_edits hu hseq hdata).trans (Relation.ReflTransGen.trans ?_ (ih h))
      by_cases hfin : cseg.fin = true ∧ u.state = .established
      · rw [if_pos hfin]
        refine (Edit.turn u.accounts .closeWait ?_ ?_ (by decide) rfl).edits
        · rw [show u.accounts.state = _ from hfin.2]
          decide
        · rw [show u.accounts.state = _ from hfin.2]
          rfl
      · rw [if_neg hfin]
        exact Edits.of_eq rfl
    · obtain rfl := Option.some.inj h
      exact .refl

theorem receiveInSequence_edits {inseg : OoSeg} {r : Pcb × Received}
    (h : s.receiveInSequence inseg = some r) (hseq : s.rcvNxt = inseg.seqno) (hdata : data) :
    Edits acks data s.accounts r.1.accounts := by
  obtain ⟨i, hi, h⟩ := Option.bind_eq_some_iff.1 h
  obtain ⟨j, hj, h⟩ := Option.bind_eq_some_iff.1 h
  obtain ⟨u, hu, h⟩ := Option.bind_eq_some_iff.1 h
  obtain ⟨v, hv, rfl⟩ := Option.map_eq_some_iff.1 h
  have hjseq : j.1.seqno = s.rcvNxt :=
    (trimToOoseq_seqno hj).trans ((trimToWindow_seqno hi).trans hseq.symm)
  have haccept : Edits acks data s.accounts u.accounts := by
    refine edits_of_same ?_ (acceptSeg_edits hu hjseq hdata)
    rfl
  refine haccept.trans ((splice_edits hv hdata).trans (Edits.of_eq ?_))
  show v.1.tcpAck.accounts = v.1.accounts
  rw [tcpAck]
  split_ifs <;> rfl

theorem receiveData_edits {g : InSeg} {alloc ack : Bool} {r : Pcb × Received}
    (h : s.receiveData g alloc ack = some r) (hdata : data) :
    Edits acks data s.accounts r.1.accounts := by
  obtain ⟨u, hu, hr⟩ := receiveData_cases h
  have hsame : u.accounts = s.accounts := by rcases hu with rfl | rfl <;> rfl
  refine edits_of_same hsame ?_
  rcases hr with ⟨i, -, hseq, hi⟩ | ⟨q, rfl⟩ | rfl | rfl
  · exact receiveInSequence_edits hi hseq hdata
  · exact tcpSendEmptyAck_edits ack
  · exact tcpSendEmptyAck_edits ack
  · exact .of_eq rfl

theorem tcpReceive_edits {g : InSeg} {alloc ack : Bool} {r : Pcb × Received}
    (h : s.tcpReceive g alloc ack = some r) (hacks : s.Acceptable g → acks g.ackno) :
    Edits acks True s.accounts r.1.accounts := by
  have hsync : s.state ≠ .synSent := by
    rw [tcpReceive] at h
    intro hs
    rw [hs] at h
    cases h
  obtain ⟨u, hu, hr⟩ := tcpReceive_cases h
  refine Relation.ReflTransGen.trans ?_ (receiveData_edits hr trivial)
  rcases hu with ⟨hack, hu⟩ | ⟨-, rfl⟩
  · exact receiveAck_edits hu hsync fun hnew ↦ hacks ⟨hack, hnew⟩
  · exact .refl

/-- The states behind `tcp_receive`. -/
theorem tcpReceive_state {g : InSeg} {alloc ack : Bool} {r : Pcb × Received}
    (h : s.tcpReceive g alloc ack = some r) :
    r.1.state = s.state ∨ s.state = .established ∧ r.1.state = .closeWait := by
  obtain ⟨u, hu, hr⟩ := tcpReceive_cases h
  have hstate : u.state = s.state := by
    rcases hu with ⟨-, hu⟩ | ⟨-, rfl⟩
    · exact (receiveAck_receiver hu).state
    · rfl
  have hstill := (receiveData_still hr).state
  rwa [hstate] at hstill

/-- A `FIN` comes into sequence only while none has. -/
theorem beforeCloseWait_of_gotFin {g : InSeg} {alloc ack : Bool} {r : Pcb × Received}
    (h : s.tcpReceive g alloc ack = some r) (hfin : r.2.gotFin = true) :
    s.state.beforeCloseWait = true ∧ s.state.synchronized = true := by
  have hsync : s.state.synchronized = true := by
    rw [tcpReceive] at h
    by_contra hs
    rw [if_neg hs] at h
    cases h
  refine ⟨?_, hsync⟩
  obtain ⟨u, hu, hr⟩ := tcpReceive_cases h
  have hstate : u.state = s.state := by
    rcases hu with ⟨-, hu⟩ | ⟨-, rfl⟩
    · exact (receiveAck_receiver hu).state
    · rfl
  by_contra hs
  rw [receiveData, if_neg (by rw [hstate]; exact fun h ↦ hs h.2)] at hr
  obtain rfl := Option.some.inj hr
  cases hfin

/-! ### `tcp_process` -/

theorem not_over_of_before {state : TcpState} (h : state.beforeCloseWait = true)
    (h' : state.synchronized = true) : state ≠ .synSent ∧ state.over = false := by
  revert h h'
  cases state <;> simp [TcpState.beforeCloseWait, TcpState.synchronized, TcpState.over]

/-- Another state when the `FIN` has come into sequence. -/
theorem turn_of_gotFin {g : InSeg} {alloc ack : Bool} {r : Pcb × Received} {state : TcpState}
    (h : s.tcpReceive g alloc ack = some r) (hfin : r.2.gotFin = true) (hto : state ≠ .synSent)
    (hstate : state.over = false) :
    Edits acks data r.1.accounts { r.1.accounts with state := state } := by
  obtain ⟨hbefore, hsync⟩ := beforeCloseWait_of_gotFin h hfin
  have hopen : r.1.state ≠ .synSent ∧ r.1.state.over = false := by
    rcases tcpReceive_state h with hr | ⟨-, hr⟩
    · rw [hr]
      exact not_over_of_before hbefore hsync
    · rw [hr]
      exact ⟨nofun, rfl⟩
  exact (Edit.turn r.1.accounts state hopen.1 hopen.2 hto hstate).edits

theorem enterTimeWait_edits : Edits acks data s.accounts s.enterTimeWait.accounts := tcpPcbPurge_edits rfl

theorem synAcked_edits {g : InSeg} {mtu : ℕ} {seg : TcpSeg} {rest : List TcpSeg}
    (hstate : s.state = .synSent) (hunacked : s.unacked = seg :: rest) (hack : g.ackno = seg.seqno + 1)
    (hlen : 0 < s.sndQueuelen) : Edits acks data s.accounts (s.synAcked g mtu rest).accounts := by
  have hedit : Edit acks data s.accounts _ := Edit.synAcked s.accounts seg rest (g.seqno + 1) g.wnd
    hstate hunacked hlen g.wnd_lt
  rw [← hack] at hedit
  exact hedit.edits

theorem connected_edits {g : InSeg} {env : InEnv} (h : s.connected g env = some s')
    (hstate : s.state = .synSent) : Edits acks False s.accounts s'.accounts := by
  rw [connected] at h
  rcases hunacked : s.unacked with - | ⟨seg, rest⟩ <;> rw [hunacked] at h
  · cases h
  · dsimp only at h
    by_cases hack : g.ackno = seg.seqno + 1
    · rw [if_pos hack] at h
      by_cases hlen : 0 < s.sndQueuelen
      · rw [if_pos hlen] at h
        obtain ⟨u, hu, rfl⟩ := Option.map_eq_some_iff.1 h
        refine (synAcked_edits hstate hunacked hack hlen).trans ((appCalls_edits hu).trans ?_)
        split_ifs <;> exact Edits.of_eq rfl
      · rw [if_neg hlen] at h
        cases h
    · rw [if_neg hack] at h
      obtain rfl := Option.some.inj h
      exact .refl

theorem accepted_edits {g : InSeg} {env : InEnv} {r : Pcb × InResult} (h : s.accepted g env = some r)
    (hstate : s.state = .synRcvd) (hacks : acks g.ackno) :
    ∃ a, Edits acks False s.accounts a ∧ Edits acks True a r.1.accounts := by
  obtain ⟨u, hu, h⟩ := Option.bind_eq_some_iff.1 h
  have hturn : Edits acks False s.accounts { s with state := .established }.accounts :=
    (Edit.turn s.accounts .established (show s.state ≠ _ by rw [hstate]; nofun)
      (congrArg TcpState.over hstate) nofun rfl).edits
  refine ⟨u.accounts, hturn.trans (appCalls_edits hu), ?_⟩
  by_cases hresult : env.result ≠ .ok
  · rw [if_pos hresult] at h
    obtain rfl := Option.some.inj h
    dsimp only
    split_ifs
    · exact .refl
    · exact tcpPcbRemove_edits true env.ack
  · rw [if_neg hresult] at h
    obtain ⟨v, hv, rfl⟩ := Option.map_eq_some_iff.1 h
    refine (tcpReceive_edits hv fun _ ↦ hacks).trans ?_
    dsimp only
    by_cases hfin : v.2.gotFin = true
    · rw [if_pos hfin]
      exact turn_of_gotFin hv hfin nofun rfl
    · rw [if_neg hfin]
      exact Edits.of_eq rfl

/-- **The switch over the states.** -/
theorem processState_edits {g : InSeg} {env : InEnv} {r : Pcb × InResult}
    (h : s.processState g env = some r)
    (hacks : s.state = .synRcvd ∨ s.state.synchronized = true → s.Acceptable g → acks g.ackno) :
    ∃ a, Edits acks False s.accounts a ∧ Edits acks True a r.1.accounts := by
  -- the states in which `tcp_receive` is called first
  have hreceive : ∀ {v : Pcb × Received} {u : Pcb}, s.tcpReceive g env.alloc env.ack = some v →
      Edits acks True v.1.accounts u.accounts →
      ∃ a, Edits acks False s.accounts a ∧ Edits acks True a u.accounts := by
    intro v u hv hu
    have hsync : s.state.synchronized = true := by
      by_contra hs
      rw [tcpReceive, if_neg hs] at hv
      cases hv
    exact ⟨s.accounts, .refl, (tcpReceive_edits hv (hacks (Or.inr hsync))).trans hu⟩
  rw [processState] at h
  rcases hs : s.state <;> rw [hs] at h
  case closed | listen | timeWait =>
    obtain rfl := Option.some.inj h
    exact ⟨s.accounts, .refl, .refl⟩
  case synSent =>
    dsimp only at h
    split_ifs at h
    · obtain ⟨u, hu, rfl⟩ := Option.map_eq_some_iff.1 h
      exact ⟨u.accounts, connected_edits hu hs, .refl⟩
    · obtain rfl := Option.some.inj h
      exact ⟨s.accounts, .refl, .refl⟩
  case synRcvd =>
    dsimp only at h
    split_ifs at h with hack hnew
    · exact accepted_edits h hs (hacks (Or.inl hs) ⟨hack, hnew⟩)
    · obtain rfl := Option.some.inj h
      exact ⟨s.accounts, .refl, .refl⟩
    · obtain rfl := Option.some.inj h
      exact ⟨s.accounts, .refl, tcpRexmit_edits⟩
    · obtain rfl := Option.some.inj h
      exact ⟨s.accounts, .refl, .refl⟩
  case closeWait | established =>
    obtain ⟨v, hv, rfl⟩ := Option.map_eq_some_iff.1 h
    refine hreceive hv ?_
    dsimp only
    split_ifs with hfin
    · exact turn_of_gotFin hv hfin (by simp) rfl
    · exact .refl
  case finWait1 =>
    obtain ⟨v, hv, rfl⟩ := Option.map_eq_some_iff.1 h
    refine hreceive hv ?_
    dsimp only
    split_ifs with hfin
    · exact enterTimeWait_edits (s := { v.1 with ackNow := true })
    · exact turn_of_gotFin hv hfin (by simp) rfl
    · have hv1 : v.1.state = .finWait1 := by
        rcases tcpReceive_state hv with hst | ⟨hst, -⟩
        · exact hst.trans hs
        · exact absurd (hs.symm.trans hst) (by simp)
      exact (Edit.turn v.1.accounts .finWait2 (show v.1.state ≠ _ by rw [hv1]; simp)
        (congrArg TcpState.over hv1) (by simp) rfl).edits
    · exact .refl
  case finWait2 =>
    obtain ⟨v, hv, rfl⟩ := Option.map_eq_some_iff.1 h
    refine hreceive hv ?_
    dsimp only
    split_ifs
    · exact enterTimeWait_edits (s := { v.1 with ackNow := true })
    · exact .refl
  case closing =>
    obtain ⟨v, hv, rfl⟩ := Option.map_eq_some_iff.1 h
    refine hreceive hv ?_
    dsimp only
    split_ifs
    · exact enterTimeWait_edits
    · exact .refl
  case lastAck =>
    obtain ⟨v, hv, rfl⟩ := Option.map_eq_some_iff.1 h
    exact hreceive hv .refl

theorem tcpParseopt_accounts (g : InSeg) : (s.tcpParseopt g).accounts = s.accounts := by
  rw [tcpParseopt]
  split <;> rfl

theorem tcpProcess_edits {g : InSeg} {env : InEnv} {r : Pcb × InResult}
    (h : s.tcpProcess g env = some r) (hacks : s.TakesAck g → acks g.ackno) :
    ∃ a, Edits acks False s.accounts a ∧ Edits acks True a r.1.accounts := by
  have hkept : (s.tcpParseopt g).Acceptable g → s.Acceptable g := by
    rw [Acceptable, Acceptable, tcpParseopt]
    split <;> exact id
  have hstate : (s.tcpParseopt g).state = s.state := by
    rw [tcpParseopt]
    split <;> rfl
  rw [tcpProcess] at h
  by_cases hrst : g.rst = true
  · rw [if_pos hrst] at h
    obtain rfl := Option.some.inj h
    refine ⟨s.accounts, .refl, Edits.of_eq ?_⟩
    dsimp only
    split_ifs <;> rfl
  rw [if_neg hrst] at h
  by_cases hsyn : g.syn = true ∧ s.state ≠ .synSent ∧ s.state ≠ .synRcvd
  · rw [if_pos hsyn] at h
    obtain rfl := Option.some.inj h
    exact ⟨s.accounts, .refl, .of_eq rfl⟩
  · rw [if_neg hsyn] at h
    have hedits : ∃ a, Edits acks False _ a ∧ Edits acks True a _ := processState_edits h fun hs ha ↦ by
      rw [hstate] at hs
      refine hacks ⟨eq_false_of_ne_true hrst, hs.imp_right fun hsync ↦ ⟨hsync, ?_⟩, hkept ha⟩
      by_contra hflag
      refine hsyn ⟨eq_true_of_ne_false hflag, ?_, ?_⟩ <;> intro hst <;> rw [hst] at hsync <;> cases hsync
    rwa [tcpParseopt_accounts] at hedits

theorem tcpTimewaitInput_edits (g : InSeg) (ack : Bool) :
    Edits acks data s.accounts (s.tcpTimewaitInput g ack).accounts := by
  rw [tcpTimewaitInput]
  split_ifs
  · exact .refl
  · exact .refl
  · refine edits_of_same ?_ (tcpOutput_edits false ack)
    rfl
  · exact .refl

theorem tcpSlowtmr_edits (env : TickEnv) : Edits acks data s.accounts (s.tcpSlowtmr env).accounts := by
  have hrexmit : Edits acks data s.accounts (if s.givesUp then { s with ticks := s.ticks + 1 }
      else { s with ticks := s.ticks + 1 }.slowtmrRexmit env).accounts := by
    split_ifs
    · exact .of_eq rfl
    · refine edits_of_same ?_ (slowtmrRexmit_edits env)
      rfl
  have hgives : ({ s with ticks := s.ticks + 1 } : Pcb).givesUp = s.givesUp := rfl
  rw [tcpSlowtmr]
  dsimp only
  rw [hgives]
  refine Relation.ReflTransGen.trans hrexmit ?_
  generalize (if s.givesUp then { s with ticks := s.ticks + 1 }
      else { s with ticks := s.ticks + 1 }.slowtmrRexmit env) = u
  have hkeepalive : Edits acks data u.accounts
      (if env.keepalive then u.tcpKeepalive env.alloc else u).accounts := by
    split_ifs
    · exact tcpKeepalive_edits env.alloc
    · exact .refl
  refine Relation.ReflTransGen.trans hkeepalive ?_
  generalize (if env.keepalive then u.tcpKeepalive env.alloc else u) = v
  have hdrop : (if env.dropOoseq then { v with ooseq := [] } else v).accounts = v.accounts := by
    split_ifs <;> rfl
  refine edits_of_same hdrop ?_
  generalize (if env.dropOoseq then { v with ooseq := [] } else v) = w
  split_ifs
  · exact tcpPcbPurge_edits rfl
  · exact .refl

end Pcb

/-! ### Steps -/

namespace Conn

open Accounts (Edit Edits)

variable {c c' : Conn} {l : Label}

/-- The acknowledgement number that a step may take. -/
def takes : Label → Conn → SeqNum → Prop
  | .input g _, c, ackno => c.pcb.Acceptable g ∧ ackno = g.ackno
  | _, _, _ => False

theorem reportFin_edits {acks : SeqNum → Prop} :
    Edits acks False c.pcb.accounts c.reportFin.pcb.accounts := by
  rw [reportFin]
  dsimp only
  split_ifs with hwnd
  · exact (Edit.fin c.pcb.accounts id hwnd).edits
  · exact .refl

/-- The acknowledgement number of a segment is taken: there is no refused data that the segment must
wait for. -/
def TakesAck (c : Conn) (g : InSeg) : Prop :=
  ¬(c.pcb.refusedData.isSome = true ∧ 0 < g.tcplen) ∧ c.pcb.TakesAck g

instance (c : Conn) (g : InSeg) : Decidable (c.TakesAck g) := inferInstanceAs (Decidable (_ ∧ _))

theorem input_edits {g : InSeg} {env : InEnv} {acks : SeqNum → Prop} (h : c.input g env = some c')
    (hacks : c.TakesAck g → acks g.ackno) :
    ∃ a, Edits acks False c.pcb.accounts a ∧ Edits acks True a c'.pcb.accounts := by
  rw [input] at h
  split_ifs at h with hrefused
  · obtain rfl := Option.some.inj h
    exact ⟨_, .refl, .refl⟩
  · obtain ⟨r, hr, rfl⟩ := Option.map_eq_some_iff.1 h
    obtain ⟨a, hcalls, hdata⟩ := Pcb.tcpProcess_edits hr fun ha ↦ hacks ⟨hrefused, ha⟩
    refine ⟨a, hcalls, hdata.trans ?_⟩
    split_ifs
    · exact Pcb.tcpPcbRemove_edits true env.ack
    · exact Pcb.tcpPcbRemove_edits true env.ack
    · exact .refl
    · exact .refl

theorem inputDone_edits {ack : Bool} {acks : SeqNum → Prop} (h : c.inputDone ack = some c') :
    Edits acks False c.pcb.accounts c'.pcb.accounts := by
  rw [inputDone] at h
  split at h
  · cases h
  split_ifs at h with hdata hfin
  · obtain rfl := Option.some.inj h
    dsimp only
    refine Relation.ReflTransGen.trans ?_ (Pcb.tcpOutput_edits false ack)
    split
    · exact Edits.of_eq rfl
    · exact reportFin_edits
  · obtain rfl := Option.some.inj h
    exact Pcb.tcpOutput_edits false ack

theorem refused_edits {accept : Bool} {acks : SeqNum → Prop} (h : c.refused accept = some c') :
    Edits acks False c.pcb.accounts c'.pcb.accounts := by
  rw [refused] at h
  split at h
  · cases h
  rename_i data fin heq
  split_ifs at h with haccept hfin
  · obtain rfl := Option.some.inj h
    refine Pcb.edits_of_same ?_ reportFin_edits
    rfl
  · obtain rfl := Option.some.inj h
    exact .of_eq rfl
  · obtain rfl := Option.some.inj h
    exact .refl

/-- **A step edits the accounts**, first for the application and then for the data that has arrived. -/
theorem step_edits_of {acks : SeqNum → Prop} (h : Conn.step l c = some c')
    (hacks : ∀ g env, l = .input g env → c.TakesAck g → acks g.ackno) :
    ∃ a, Edits acks False c.pcb.accounts a ∧ Edits acks True a c'.pcb.accounts := by
  cases l with
  | call a =>
    obtain ⟨s, hs, rfl⟩ := Option.map_eq_some_iff.1 h
    exact ⟨s.accounts, Pcb.appCall_edits hs, .refl⟩
  | input g env =>
    rw [step] at h
    split_ifs at h
    · obtain rfl := Option.some.inj h
      exact ⟨_, .refl, Pcb.tcpTimewaitInput_edits g env.ack⟩
    · exact input_edits h (hacks g env rfl)
  | recv accept ack =>
    refine ⟨_, .refl, ?_⟩
    rw [step, recv] at h
    split at h
    · cases h
    split_ifs at h <;> obtain rfl := Option.some.inj h
    · exact Pcb.tcpPcbRemove_edits true ack
    · exact .refl
    · exact Edits.of_eq rfl
  | inputDone ack => exact ⟨_, inputDone_edits h, .refl⟩
  | refused accept =>
    rw [step] at h
    split_ifs at h
    exact ⟨_, refused_edits h, .refl⟩
  | fasttmr ack =>
    refine ⟨_, .refl, ?_⟩
    rw [step] at h
    split_ifs at h <;> obtain rfl := Option.some.inj h
    · refine Relation.ReflTransGen.trans ?_ (Edits.of_eq (a := (Pcb.tcpOutput
        { c.pcb with ackNow := true } false ack).accounts) rfl)
      refine Pcb.edits_of_same ?_ (Pcb.tcpOutput_edits false ack)
      rfl
    · exact .refl
  | slowtmr env =>
    refine ⟨_, .refl, ?_⟩
    rw [step] at h
    split_ifs at h
    obtain rfl := Option.some.inj h
    exact Pcb.tcpSlowtmr_edits env

theorem step_edits (h : Conn.step l c = some c') :
    ∃ a, Edits (takes l c) False c.pcb.accounts a ∧ Edits (takes l c) True a c'.pcb.accounts := by
  refine step_edits_of h fun g env hl ha ↦ ?_
  subst hl
  exact ⟨ha.2.2.2, rfl⟩

/-! ### In the middle of a step -/

/-- **The control blocks that a step calls the functions of the API and `tcp_receive` on**: the one that
the step starts with, and those that the calls from the `accept` or `connected` callback lead to. -/
inductive Entered (c : Conn) : Label → Pcb → Prop
  | call (a : Call) : Entered c (.call a) c.pcb
  | input (g : InSeg) (env : InEnv) : Entered c (.input g env) (c.pcb.tcpParseopt g)
  | accepted (g : InSeg) (env : InEnv) (cs rest : List Call) (s : Pcb) (hstate : c.pcb.state = .synRcvd)
      (hnew : c.pcb.Acceptable g) (hcalls : env.calls = cs ++ rest)
      (hs : Pcb.appCalls true cs { c.pcb.tcpParseopt g with state := .established } = some s) :
      Entered c (.input g env) s
  | connected (g : InSeg) (env : InEnv) (seg : TcpSeg) (u : List TcpSeg) (cs rest : List Call) (s : Pcb)
      (hstate : c.pcb.state = .synSent) (hunacked : c.pcb.unacked = seg :: u)
      (hack : g.ackno = seg.seqno + 1) (hlen : 0 < c.pcb.sndQueuelen) (hcalls : env.calls = cs ++ rest)
      (hs : ((c.pcb.tcpParseopt g).synAcked g env.mtu u).appCalls true cs = some s) :
      Entered c (.input g env) s

/-- They are reached by edits. -/
theorem Entered.edits {s : Pcb} {acks : SeqNum → Prop} (h : Entered c l s) :
    Edits acks False c.pcb.accounts s.accounts := by
  cases h with
  | call => exact .refl
  | input g env => exact .of_eq (Pcb.tcpParseopt_accounts g)
  | accepted g env cs rest s hstate hnew hcalls hs =>
    have hopt := Pcb.tcpParseopt_accounts (s := c.pcb) g
    have hstate' : (c.pcb.tcpParseopt g).state = .synRcvd :=
      (congrArg Accounts.state hopt).trans hstate
    have hturn : Edit acks False (c.pcb.tcpParseopt g).accounts _ := Edit.turn _ .established
      (show (c.pcb.tcpParseopt g).state ≠ _ by rw [hstate']; nofun) (congrArg TcpState.over hstate')
      nofun rfl
    exact Pcb.edits_of_same hopt (hturn.edits.trans (Pcb.appCalls_edits hs))
  | connected g env seg u cs rest s hstate hunacked hack hlen hcalls hs =>
    have hopt := Pcb.tcpParseopt_accounts (s := c.pcb) g
    have hstate' : (c.pcb.tcpParseopt g).state = .synSent := (congrArg Accounts.state hopt).trans hstate
    have hunacked' : (c.pcb.tcpParseopt g).unacked = seg :: u :=
      (congrArg Accounts.unacked hopt).trans hunacked
    have hlen' : 0 < (c.pcb.tcpParseopt g).sndQueuelen :=
      hlen.trans_eq (congrArg Accounts.sndQueuelen hopt).symm
    exact Pcb.edits_of_same hopt
      ((Pcb.synAcked_edits hstate' hunacked' hack hlen').trans (Pcb.appCalls_edits hs))

end Conn

end Lwip.Tcp
