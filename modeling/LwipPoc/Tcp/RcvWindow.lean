import LwipPoc.Tcp.AccountSteps

/-!
# The window that is announced to the peer

`rcv_ann_right_edge` is the end of the window that the peer knows of, and `rcv_nxt + rcv_wnd` is the end
of the one that there is. The second only moves forward, and the first follows it with every segment
that is sent: it must never move back, since the peer may have filled the window up to it.

**It keeps the promise as long as it is not left behind by half of the sequence space.** The comparison
in `tcp_update_rcv_ann_wnd` goes by the sign of a difference, and so the announced edge must be less than
`2 ^ 31` behind. Nothing enforces this. Data is taken up to the actual window, announced or not, and when
`tcp_send_empty_ack` cannot get a pbuf, the announced edge stays where it is: after `2 ^ 31` bytes without
an acknowledgement the assertion about `new_rcv_ann_wnd` fails (`exists_update_fails`).

The proof uses positions of the stream of the peer, numbers that do not wrap: `n` is the one of `rcv_nxt`,
and `e` the one of the announced edge.
-/

namespace Lwip.Tcp

open Accounts (Edit Edits)

variable {acks : SeqNum → Prop} {isn : SeqNum} {a b : Accounts} {n e : ℕ}

/-! ### Positions -/

/-- **The windows.** The announced one is not larger than the actual one, and no announcement takes the
edge back. -/
structure RcvAt (isn : SeqNum) (n e : ℕ) (a : Accounts) : Prop where
  rcvNxt : a.rcvNxt = seqAt isn n
  edge : a.rcvAnnRightEdge = seqAt isn e
  le_announced : e ≤ n + a.rcvAnnWnd
  ann_le : a.rcvAnnWnd ≤ a.rcvWnd
  wnd_le : a.rcvWnd ≤ tcpWnd

/-- What `tcp_update_rcv_ann_wnd` finds keeps the promise, as long as the edge is near. -/
theorem announces_le {mss wnd ann : ℕ} {nxt edge : SeqNum} (h : Accounts.Announces mss nxt wnd edge ann)
    (hn : nxt = seqAt isn n) (he : edge = seqAt isn e) (hwnd : wnd ≤ tcpWnd)
    (hle : e ≤ n + wnd) (hnear : n + wnd < e + 2 ^ 31) : e ≤ n + ann ∧ ann ≤ wnd := by
  have h1 : tcpWnd = 5360 := rfl
  rw [Accounts.Announces, hn, he] at h
  split_ifs at h with hupdate hbehind
  · omega
  · rw [seqGt_seqAt (by omega) (by omega)] at hbehind
    omega
  · rw [seqGt_seqAt (by omega) (by omega)] at hbehind
    rw [seqAt_sub (by omega) (by omega)] at h
    omega

/-- And the assertion does not fail. -/
theorem tcpUpdateRcvAnnWnd_ne_none {s : Pcb} (hn : s.rcvNxt = seqAt isn n)
    (he : s.rcvAnnRightEdge = seqAt isn e) (hwnd : s.rcvWnd ≤ tcpWnd) (hle : e ≤ n + s.rcvWnd)
    (hnear : n + s.rcvWnd < e + min (tcpWnd / 2) s.mss + 2 ^ 31) : s.tcpUpdateRcvAnnWnd ≠ none := by
  have h1 : tcpWnd = 5360 := rfl
  have hmss : min (tcpWnd / 2) s.mss ≤ 2680 := Nat.min_le_left ..
  rw [Pcb.tcpUpdateRcvAnnWnd]
  dsimp only
  split_ifs with hupdate hbehind hlimit
  · exact Option.some_ne_none _
  · exact Option.some_ne_none _
  · exact Option.some_ne_none _
  · rw [hn, he, ← seqAt_add, ← seqAt_add, seqGeq_seqAt (by omega) (by omega)] at hupdate
    rw [hn, he, seqGt_seqAt (by omega) (by omega)] at hbehind
    rw [hn, he, seqAt_sub (by omega) (by omega)] at hlimit
    omega

/-! ### What an edit does to the windows -/

/-- The windows are as before. -/
structure SameWindows (a b : Accounts) : Prop where
  rcvNxt : b.rcvNxt = a.rcvNxt
  rcvWnd : b.rcvWnd = a.rcvWnd
  rcvAnnWnd : b.rcvAnnWnd = a.rcvAnnWnd
  edge : b.rcvAnnRightEdge = a.rcvAnnRightEdge

theorem RcvAt.same (h : RcvAt isn n e a) (hs : SameWindows a b) : RcvAt isn n e b :=
  ⟨hs.1.trans h.1, hs.4.trans h.2, by rw [hs.3]; exact h.3, by rw [hs.2, hs.3]; exact h.4,
    by rw [hs.2]; exact h.5⟩

/-- The edits that are about the windows. -/
theorem edit_windows {data : Prop} (h : Edit acks data a b) :
    SameWindows a b ∨ b = a.announce ∨
    (a.state = .synSent ∧ b.rcvAnnRightEdge = b.rcvNxt ∧ b.rcvWnd = a.rcvWnd ∧
      b.rcvAnnWnd = a.rcvAnnWnd) ∨
    (data ∧ ∃ k mss wnd, k ≤ a.rcvWnd ∧ mss ≤ tcpWnd ∧
      Accounts.Announces mss (a.rcvNxt + BitVec.ofNat 32 k) (a.rcvWnd - k) a.rcvAnnRightEdge wnd ∧
      b = { a with
        rcvNxt := a.rcvNxt + BitVec.ofNat 32 k, rcvWnd := a.rcvWnd - k, rcvAnnWnd := wnd }) ∨
    (¬data ∧ ∃ k mss wnd, mss ≤ tcpWnd ∧
      Accounts.Announces mss a.rcvNxt (min (a.rcvWnd + k) tcpWnd) a.rcvAnnRightEdge wnd ∧
      b = { a with rcvWnd := min (a.rcvWnd + k) tcpWnd, rcvAnnWnd := wnd }) ∨
    (¬data ∧ a.rcvWnd ≠ tcpWnd ∧ b = { a with rcvWnd := a.rcvWnd + 1 }) := by
  cases h with
  | announce => exact Or.inr (Or.inl rfl)
  | synAcked seg rest rcvNxt wnd hstate => exact Or.inr (Or.inr (Or.inl ⟨hstate, rfl, rfl, rfl⟩))
  | accept k mss wnd hdata hk hmss hwnd =>
    exact Or.inr (Or.inr (Or.inr (Or.inl ⟨hdata, k, mss, wnd, hk, hmss, hwnd, rfl⟩)))
  | recved k mss wnd hdata hmss hwnd =>
    exact Or.inr (Or.inr (Or.inr (Or.inr (Or.inl ⟨hdata, k, mss, wnd, hmss, hwnd, rfl⟩))))
  | fin hdata hwnd => exact Or.inr (Or.inr (Or.inr (Or.inr (Or.inr ⟨hdata, hwnd, rfl⟩))))
  | _ => exact Or.inl ⟨rfl, rfl, rfl, rfl⟩

/-- The connection is not opened again. -/
theorem edit_state {data : Prop} (h : Edit acks data a b) (ha : a.state ≠ .synSent) :
    b.state ≠ .synSent := by
  cases h with
  | turn state hfrom hover hto => exact hto
  | drop state oversize hstate =>
    rintro rfl
    cases hstate
  | remove state hover hstate =>
    rintro rfl
    cases hstate
  | synAcked => nofun
  | _ => exact ha

theorem RcvAt.announce (h : RcvAt isn n e a) : RcvAt isn n (n + a.rcvAnnWnd) a.announce :=
  ⟨h.rcvNxt, by rw [seqAt_add, ← h.rcvNxt]; rfl, le_rfl, h.ann_le, h.wnd_le⟩

/-- **The application's side.** `rcv_nxt` stays, and the window is at most the largest one. -/
theorem RcvAt.call (h : RcvAt isn n e a) (hnear : n + tcpWnd < e + 2 ^ 31) (hedit : Edit acks False a b) :
    ∃ n' e', RcvAt isn n' e' b ∧ n' + tcpWnd < e' + 2 ^ 31 ∧
      (a.state ≠ .synSent → n' = n ∧ e ≤ e') := by
  have hann := h.le_announced
  have hle := h.ann_le
  have hwnd := h.wnd_le
  rcases edit_windows hedit with hs | rfl | ⟨hs, hedge, hw, ha⟩ | ⟨⟨⟩, -⟩ |
    ⟨-, k, mss, wnd, hmss, hwnd', rfl⟩ | ⟨-, hne, rfl⟩
  · exact ⟨n, e, h.same hs, hnear, fun _ ↦ ⟨rfl, le_rfl⟩⟩
  · exact ⟨n, _, h.announce, by omega, fun _ ↦ ⟨rfl, hann⟩⟩
  · -- the `SYN` of the peer says where its stream starts
    obtain ⟨q, -, -, hq⟩ := exists_seqAt isn b.rcvNxt 0
    refine ⟨q, q, ⟨hq, hedge.trans hq, Nat.le_add_right .., ?_, ?_⟩, ?_, fun hne ↦ absurd hs hne⟩
    · rwa [ha, hw]
    · rwa [hw]
    · have h1 : tcpWnd = 5360 := rfl
      omega
  · obtain ⟨h1, h2⟩ := announces_le hwnd' h.rcvNxt h.edge (Nat.min_le_right ..) (by omega) (by omega)
    exact ⟨n, e, ⟨h.rcvNxt, h.edge, h1, h2, Nat.min_le_right ..⟩, hnear, fun _ ↦ ⟨rfl, le_rfl⟩⟩
  · exact ⟨n, e, ⟨h.rcvNxt, h.edge, hann, by dsimp only; omega, by dsimp only; omega⟩, hnear,
      fun _ ↦ ⟨rfl, le_rfl⟩⟩

/-- **The side of the peer.** The end of the actual window stays. -/
theorem RcvAt.receive (h : RcvAt isn n e a) (hnear : n + a.rcvWnd < e + 2 ^ 31)
    (hedit : Edit acks True a b) :
    ∃ n' e', RcvAt isn n' e' b ∧ n' + b.rcvWnd < e' + 2 ^ 31 ∧
      (a.state ≠ .synSent → n' + b.rcvWnd = n + a.rcvWnd ∧ e ≤ e') := by
  have hann := h.le_announced
  have hle := h.ann_le
  have hwnd := h.wnd_le
  rcases edit_windows hedit with hs | rfl | ⟨hs, hedge, hw, ha⟩ |
    ⟨-, k, mss, wnd, hk, hmss, hwnd', rfl⟩ | ⟨hdata, -⟩ | ⟨hdata, -⟩
  · rw [hs.rcvWnd]
    exact ⟨n, e, h.same hs, hnear, fun _ ↦ ⟨rfl, le_rfl⟩⟩
  · exact ⟨n, _, h.announce, by show n + a.rcvWnd < _; omega, fun _ ↦ ⟨rfl, hann⟩⟩
  · obtain ⟨q, -, -, hq⟩ := exists_seqAt isn b.rcvNxt 0
    refine ⟨q, q, ⟨hq, hedge.trans hq, Nat.le_add_right .., ?_, ?_⟩, ?_, fun hne ↦ absurd hs hne⟩
    · rwa [ha, hw]
    · rwa [hw]
    · have h1 : tcpWnd = 5360 := rfl
      omega
  · have hn : a.rcvNxt + BitVec.ofNat 32 k = seqAt isn (n + k) := by rw [seqAt_add, h.rcvNxt]
    obtain ⟨h1, h2⟩ := announces_le hwnd' hn h.edge (by omega) (by omega) (by omega)
    exact ⟨n + k, e, ⟨hn, h.edge, h1, h2, by dsimp only; omega⟩, by dsimp only; omega,
      fun _ ↦ ⟨by dsimp only; omega, le_rfl⟩⟩
  · exact absurd trivial hdata
  · exact absurd trivial hdata

/-! ### Any number of edits -/

theorem RcvAt.calls (h : RcvAt isn n e a) (hnear : n + tcpWnd < e + 2 ^ 31) (hedits : Edits acks False a b) :
    ∃ n' e', RcvAt isn n' e' b ∧ n' + tcpWnd < e' + 2 ^ 31 ∧
      (a.state ≠ .synSent → b.state ≠ .synSent ∧ n' = n ∧ e ≤ e') := by
  induction hedits with
  | refl => exact ⟨n, e, h, hnear, fun ha ↦ ⟨ha, rfl, le_rfl⟩⟩
  | tail _ hedit ih =>
    obtain ⟨n₁, e₁, h₁, hnear₁, hkept₁⟩ := ih
    obtain ⟨n₂, e₂, h₂, hnear₂, hkept₂⟩ := h₁.call hnear₁ hedit
    refine ⟨n₂, e₂, h₂, hnear₂, fun ha ↦ ?_⟩
    obtain ⟨hs₁, hn₁, he₁⟩ := hkept₁ ha
    obtain ⟨hn₂, he₂⟩ := hkept₂ hs₁
    exact ⟨edit_state hedit hs₁, hn₂.trans hn₁, he₁.trans he₂⟩

theorem RcvAt.receives (h : RcvAt isn n e a) (hnear : n + a.rcvWnd < e + 2 ^ 31)
    (hedits : Edits acks True a b) :
    ∃ n' e', RcvAt isn n' e' b ∧ n' + b.rcvWnd < e' + 2 ^ 31 ∧
      (a.state ≠ .synSent → b.state ≠ .synSent ∧ n' + b.rcvWnd = n + a.rcvWnd ∧ e ≤ e') := by
  induction hedits with
  | refl => exact ⟨n, e, h, hnear, fun ha ↦ ⟨ha, rfl, le_rfl⟩⟩
  | tail _ hedit ih =>
    obtain ⟨n₁, e₁, h₁, hnear₁, hkept₁⟩ := ih
    obtain ⟨n₂, e₂, h₂, hnear₂, hkept₂⟩ := h₁.receive hnear₁ hedit
    refine ⟨n₂, e₂, h₂, hnear₂, fun ha ↦ ?_⟩
    obtain ⟨hs₁, hn₁, he₁⟩ := hkept₁ ha
    obtain ⟨hn₂, he₂⟩ := hkept₂ hs₁
    exact ⟨edit_state hedit hs₁, hn₂.trans hn₁, he₁.trans he₂⟩

/-! ### Runs -/

/-- **The condition**: a window of full size would end less than `2 ^ 31` behind the announced edge. -/
def Conn.EdgeNear (c : Conn) : Prop :=
  (c.pcb.rcvNxt + BitVec.ofNat 32 tcpWnd - c.pcb.rcvAnnRightEdge).toNat < 2 ^ 31

instance (c : Conn) : Decidable c.EdgeNear := inferInstanceAs (Decidable (_ < _))

/-- What holds in every state of a run. -/
def Conn.Granted (c : Conn) : Prop :=
  ∃ n e, RcvAt 0 n e c.pcb.accounts ∧ n + c.pcb.rcvWnd < e + 2 ^ 31

/-- The condition in positions. -/
theorem near_of_edgeNear {c : Conn} (h : RcvAt isn n e c.pcb.accounts)
    (hnear : n + c.pcb.rcvWnd < e + 2 ^ 31) (hedge : c.EdgeNear) : n + tcpWnd < e + 2 ^ 31 := by
  have h1 : tcpWnd = 5360 := rfl
  have hle := h.le_announced
  have hann := h.ann_le
  have hwnd : c.pcb.rcvWnd ≤ tcpWnd := h.wnd_le
  have hwnd' : c.pcb.accounts.rcvWnd = c.pcb.rcvWnd := rfl
  have hn : c.pcb.rcvNxt = seqAt isn n := h.rcvNxt
  have he : c.pcb.rcvAnnRightEdge = seqAt isn e := h.edge
  rw [Conn.EdgeNear, hn, he, ← seqAt_add, seqAt_sub (by omega) (by omega)] at hedge
  omega

/-- A step keeps the windows, and takes the announced edge forward. -/
theorem Conn.Granted.step {c c' : Conn} {l : Label} (h : c.Granted) (hedge : c.EdgeNear)
    (hstep : Conn.step l c = some c') :
    c'.Granted ∧ (c.pcb.state ≠ .synSent → SeqLeq c.pcb.rcvAnnRightEdge c'.pcb.rcvAnnRightEdge) := by
  obtain ⟨n, e, hr, hnear⟩ := h
  have hfull := near_of_edgeNear hr hnear hedge
  obtain ⟨a, hcalls, hdata⟩ := Conn.step_edits hstep
  obtain ⟨n₁, e₁, h₁, hnear₁, hkept₁⟩ := hr.calls hfull hcalls
  obtain ⟨n₂, e₂, h₂, hnear₂, hkept₂⟩ := h₁.receives (by have := h₁.wnd_le; omega) hdata
  refine ⟨⟨n₂, e₂, h₂, hnear₂⟩, fun hs ↦ ?_⟩
  obtain ⟨hs₁, hn₁, he₁⟩ := hkept₁ hs
  obtain ⟨-, hn₂, he₂⟩ := hkept₂ hs₁
  have hle := h₂.le_announced
  have hann := h₂.ann_le
  have hwnd := h₁.wnd_le
  have he : c.pcb.rcvAnnRightEdge = seqAt 0 e := hr.edge
  have he' : c'.pcb.rcvAnnRightEdge = seqAt 0 e₂ := h₂.edge
  rw [he, he', seqLeq_seqAt (by omega) (by omega)]
  exact he₁.trans he₂

/-- A control block with which a connection starts. -/
inductive Pcb.Starts : Pcb → Prop
  | connecting (iss : SeqNum) (ticks : BitVec 32) (mtu : ℕ) : Starts (Pcb.connecting iss ticks mtu)
  | accepting (iss : SeqNum) (ticks : BitVec 32) (g : InSeg) (mtu : ℕ) :
      Starts (Pcb.accepting iss ticks g mtu)

theorem accepting_accounts (iss : SeqNum) (ticks : BitVec 32) (g : InSeg) (mtu : ℕ) :
    (Pcb.accepting iss ticks g mtu).accounts =
      ⟨.synRcvd, g.seqno + 1, tcpWnd, tcpWnd, g.seqno + 1, iss, iss, iss + 1, g.wnd, g.wnd, tcpSndBuf - 1,
        1, 0, [⟨iss, [], true, false, 1⟩], []⟩ := by
  rw [Pcb.accepting, Pcb.tcpParseopt]
  split <;> rfl

theorem connecting_accounts (iss : SeqNum) (ticks : BitVec 32) (mtu : ℕ) :
    (Pcb.connecting iss ticks mtu).accounts =
      ⟨.synSent, 0, tcpWnd, tcpWnd, 0, iss - 1, iss, iss - 1 + 1, tcpWnd, 0, tcpSndBuf - 1,
        1, 0, [⟨iss - 1, [], true, false, 1⟩], []⟩ := rfl

theorem Pcb.Starts.granted {s : Pcb} (h : s.Starts) : (Conn.start s).Granted := by
  have h1 : tcpWnd = 5360 := rfl
  cases h with
  | connecting iss ticks mtu =>
    refine ⟨0, 0, ?_, by show 0 + tcpWnd < _; omega⟩
    rw [show (Conn.start (Pcb.connecting iss ticks mtu)).pcb.accounts = _ from connecting_accounts iss ticks mtu]
    exact ⟨rfl, rfl, Nat.zero_le _, le_rfl, le_rfl⟩
  | accepting iss ticks g mtu =>
    obtain ⟨q, -, -, hq⟩ := exists_seqAt 0 (g.seqno + 1) 0
    have hacc := accepting_accounts iss ticks g mtu
    have hwnd : (Pcb.accepting iss ticks g mtu).rcvWnd = tcpWnd := congrArg Accounts.rcvWnd hacc
    refine ⟨q, q, ?_, by show q + (Pcb.accepting iss ticks g mtu).rcvWnd < _; omega⟩
    rw [show (Conn.start (Pcb.accepting iss ticks g mtu)).pcb.accounts = _ from hacc]
    exact ⟨hq, hq, Nat.le_add_right .., le_rfl, le_rfl⟩

/-! ### Where `tcp_update_rcv_ann_wnd` is called -/

/-- The control block when `tcplen` numbers have been accepted, before the announcement is updated. -/
def Pcb.taken (s : Pcb) (seqno : SeqNum) (tcplen : ℕ) : Pcb :=
  { s with rcvNxt := seqno + BitVec.ofNat 32 tcplen, rcvWnd := s.rcvWnd - tcplen }

/-- The calls while the queued segments `q` are passed on. -/
inductive SpliceUpdates : List OoSeg → Pcb → Pcb → Prop
  | here (cseg : OoSeg) (rest : List OoSeg) (s : Pcb) (hseq : cseg.seqno = s.rcvNxt)
      (hlen : cseg.tcpLen ≤ s.rcvWnd) : SpliceUpdates (cseg :: rest) s (s.taken cseg.seqno cseg.tcpLen)
  | next (cseg : OoSeg) (rest : List OoSeg) (s t u : Pcb) (hseq : cseg.seqno = s.rcvNxt)
      (ht : s.acceptSeg cseg.seqno cseg.tcpLen = some t)
      (h : SpliceUpdates rest { t with
        ooseq := rest
        state := if cseg.fin = true ∧ t.state = .established then .closeWait else t.state } u) :
      SpliceUpdates (cseg :: rest) s u

/-- The calls in `tcp_receive`: `t` is the control block behind the acknowledgement, and `r` what is left
of the segment and of `ooseq` when it has been cut. -/
inductive ReceiveUpdates (g : InSeg) (s : Pcb) : Pcb → Prop
  | first (t : Pcb) (i j : OoSeg) (r : OoSeg × List OoSeg)
      (ht : (if g.ack then s.receiveAck g else some s) = some t)
      (hi : Pcb.trimFront t.rcvNxt g.inseg g.tcplen = some i) (hseq : t.rcvNxt = i.seqno)
      (hj : Pcb.trimToWindow t.rcvNxt t.rcvWnd i = some j) (hr : Pcb.trimToOoseq t.ooseq j = some r)
      (hlen : toU16 r.1.tcpLen ≤ t.rcvWnd) :
      ReceiveUpdates g s ({ t with ooseq := r.2 }.taken r.1.seqno (toU16 r.1.tcpLen))
  | later (t : Pcb) (i j : OoSeg) (r : OoSeg × List OoSeg) (v u : Pcb)
      (ht : (if g.ack then s.receiveAck g else some s) = some t)
      (hi : Pcb.trimFront t.rcvNxt g.inseg g.tcplen = some i) (hseq : t.rcvNxt = i.seqno)
      (hj : Pcb.trimToWindow t.rcvNxt t.rcvWnd i = some j) (hr : Pcb.trimToOoseq t.ooseq j = some r)
      (hv : { t with ooseq := r.2 }.acceptSeg r.1.seqno (toU16 r.1.tcpLen) = some v)
      (h : SpliceUpdates v.ooseq v u) : ReceiveUpdates g s u

/-- **The control blocks that a step calls `tcp_update_rcv_ann_wnd` on.** -/
inductive Conn.Updates (c : Conn) : Label → Pcb → Prop
  | recved (l : Label) (s : Pcb) (len : ℕ) (hs : c.Entered l s) (hlen : len ≤ 0xffff - s.rcvWnd) :
      Updates c l { s with rcvWnd := min (s.rcvWnd + len) tcpWnd }
  | receive (g : InSeg) (env : InEnv) (s u : Pcb) (hs : c.Entered (.input g env) s)
      (hstate : s.state.synchronized = true) (hu : ReceiveUpdates g s u) : Updates c (.input g env) u

theorem RcvAt.taken_ne_none {s : Pcb} {tcplen : ℕ} (h : RcvAt isn n e s.accounts)
    (hnear : n + s.rcvWnd < e + 2 ^ 31) (hlen : tcplen ≤ s.rcvWnd) {seqno : SeqNum}
    (hseq : seqno = s.rcvNxt) : (s.taken seqno tcplen).tcpUpdateRcvAnnWnd ≠ none := by
  have hann : e ≤ n + s.rcvAnnWnd := h.le_announced
  have hle : s.rcvAnnWnd ≤ s.rcvWnd := h.ann_le
  have hwnd : s.rcvWnd ≤ tcpWnd := h.wnd_le
  have hn : s.rcvNxt = seqAt isn n := h.rcvNxt
  refine tcpUpdateRcvAnnWnd_ne_none (n := n + tcplen) ?_ h.edge ?_ ?_ ?_
  · show seqno + BitVec.ofNat 32 tcplen = _
    rw [hseq, hn, seqAt_add]
  · show s.rcvWnd - tcplen ≤ _
    omega
  · show e ≤ n + tcplen + (s.rcvWnd - tcplen)
    omega
  · show n + tcplen + (s.rcvWnd - tcplen) < _
    omega

theorem SpliceUpdates.ne_none {q : List OoSeg} {s u : Pcb} (h : SpliceUpdates q s u)
    (hs : ∃ n e, RcvAt isn n e s.accounts ∧ n + s.rcvWnd < e + 2 ^ 31) : u.tcpUpdateRcvAnnWnd ≠ none := by
  induction h with
  | here cseg rest s hseq hlen =>
    obtain ⟨n, e, hr, hnear⟩ := hs
    exact hr.taken_ne_none hnear hlen hseq
  | next cseg rest s t u hseq ht h ih =>
    obtain ⟨n, e, hr, hnear⟩ := hs
    have hedits : Edits (fun _ ↦ False) True _ _ := Pcb.acceptSeg_edits ht hseq trivial
    obtain ⟨n', e', hr', hnear', -⟩ := hr.receives hnear hedits
    exact ih ⟨n', e', hr'.same ⟨rfl, rfl, rfl, rfl⟩, hnear'⟩

theorem ReceiveUpdates.ne_none {g : InSeg} {s u : Pcb} (h : ReceiveUpdates g s u)
    (hsync : s.state.synchronized = true) (hr : RcvAt isn n e s.accounts)
    (hnear : n + s.rcvWnd < e + 2 ^ 31) : u.tcpUpdateRcvAnnWnd ≠ none := by
  have hack : ∀ t, (if g.ack then s.receiveAck g else some s) = some t →
      ∃ n e, RcvAt isn n e t.accounts ∧ n + t.rcvWnd < e + 2 ^ 31 := by
    intro t ht
    split_ifs at ht
    · have hstate : s.state ≠ .synSent := by
        intro hs
        rw [hs] at hsync
        cases hsync
      have hedits : Edits (fun _ ↦ True) True _ _ := Pcb.receiveAck_edits ht hstate fun _ ↦ trivial
      obtain ⟨n', e', hr', hnear', -⟩ := hr.receives hnear hedits
      exact ⟨n', e', hr', hnear'⟩
    · obtain rfl := Option.some.inj ht
      exact ⟨n, e, hr, hnear⟩
  cases h with
  | first t i j r ht hi hseq hj hr' hlen =>
    obtain ⟨n', e', ht', hnear'⟩ := hack t ht
    have hjseq : r.1.seqno = t.rcvNxt :=
      (Pcb.trimToOoseq_seqno hr').trans ((Pcb.trimToWindow_seqno hj).trans hseq.symm)
    have hq : RcvAt isn n' e' ({ t with ooseq := r.2 } : Pcb).accounts := ht'.same ⟨rfl, rfl, rfl, rfl⟩
    exact hq.taken_ne_none hnear' hlen hjseq
  | later t i j r v u ht hi hseq hj hr' hv h =>
    obtain ⟨n', e', ht', hnear'⟩ := hack t ht
    have hjseq : r.1.seqno = t.rcvNxt :=
      (Pcb.trimToOoseq_seqno hr').trans ((Pcb.trimToWindow_seqno hj).trans hseq.symm)
    have hedits : Edits (fun _ ↦ False) True _ _ := Pcb.acceptSeg_edits hv hjseq trivial
    have hq : RcvAt isn n' e' ({ t with ooseq := r.2 } : Pcb).accounts := ht'.same ⟨rfl, rfl, rfl, rfl⟩
    obtain ⟨n'', e'', hr'', hnear'', -⟩ := hq.receives hnear' hedits
    exact h.ne_none ⟨n'', e'', hr'', hnear''⟩

/-- The assertion does not fail in any of these calls. -/
theorem Conn.Granted.updates {c : Conn} {l : Label} {u : Pcb} (h : c.Granted) (hedge : c.EdgeNear)
    (hu : c.Updates l u) : u.tcpUpdateRcvAnnWnd ≠ none := by
  obtain ⟨n, e, hr, hnear⟩ := h
  have hfull := near_of_edgeNear hr hnear hedge
  cases hu with
  | recved _ s len hs hlen =>
    have hedits : Edits (fun _ ↦ False) False _ _ := hs.edits
    obtain ⟨n', e', hr', hnear', -⟩ := hr.calls hfull hedits
    have hann : e' ≤ n' + s.rcvAnnWnd := hr'.le_announced
    have hle : s.rcvAnnWnd ≤ s.rcvWnd := hr'.ann_le
    have hwnd : s.rcvWnd ≤ tcpWnd := hr'.wnd_le
    refine tcpUpdateRcvAnnWnd_ne_none hr'.rcvNxt hr'.edge (Nat.min_le_right ..) ?_ ?_
    · dsimp only
      omega
    · dsimp only
      omega
  | receive g env s u hs hstate hu =>
    have hedits : Edits (fun _ ↦ False) False _ _ := hs.edits
    obtain ⟨n', e', hr', hnear', -⟩ := hr.calls hfull hedits
    have hwnd : s.rcvWnd ≤ tcpWnd := hr'.wnd_le
    exact hu.ne_none hstate hr' (by omega)

theorem fed_window_lt : 1000 < 2 ^ 16 := by decide

theorem fed_payload_le : ([] : List Byte).length ≤ 0xffff - 40 := Nat.zero_le _

/-- A connection that is accepted: the `SYN|ACK` goes out, and the peer acknowledges it. -/
def fedLabels : List Label :=
  [.call (.output true),
    .input ⟨1, 1001, 1000, false, false, false, true, none, [], fed_window_lt, fed_payload_le⟩ ⟨true, true, 0, [], .ok⟩,
    .inputDone true]

def fedPcb : Pcb :=
  Pcb.accepting 1000 0 ⟨0, 0, 1000, true, false, false, false, none, [], fed_window_lt, fed_payload_le⟩ 0

/-- The bytes that a step gives back to the window. -/
def recvedBytes : Label → ℕ
  | .call (.recved len _) => len
  | .input _ env => (env.calls.map fun
      | .recved len _ => len
      | _ => 0).sum
  | _ => 0

/-- A connection that has taken `n` bytes, and has announced nothing since the first window. -/
structure Fed (x : SeqNum) (n wnd : ℕ) (c : Conn) : Prop where
  phase : c.phase = .idle
  state : c.pcb.state = .established
  rcvNxt : c.pcb.rcvNxt = seqAt x n
  rcvWnd : c.pcb.rcvWnd = wnd
  edge : c.pcb.rcvAnnRightEdge = seqAt x tcpWnd
  ooseq : c.pcb.ooseq = []
  refusedData : c.pcb.refusedData = none
  rxClosed : c.pcb.rxClosed = false
  unsent : c.pcb.unsent = []
  mss : c.pcb.mss = 536
  delivered : c.delivered.length = n

/-- A segment that fills the window. -/
def fill (seqno : SeqNum) : InSeg where
  seqno := seqno
  ackno := 0
  wnd := 0
  syn := false
  fin := false
  rst := false
  ack := false
  mss := none
  payload := List.replicate tcpWnd 0
  payload_length_le := by rw [List.length_replicate]; decide

theorem tcpOutput_fails {s : Pcb} (input : Bool) (h : s.unsent = []) :
    ∃ o m, s.tcpOutput input false = { s with unsentOversize := o, nagleMemErr := m } := by
  rcases Pcb.tcpOutput_cases s input false with heq | heq | heq
  · exact ⟨s.unsentOversize, s.nagleMemErr, heq⟩
  · exact ⟨s.unsentOversize, s.nagleMemErr, heq⟩
  · refine ⟨0, false, ?_⟩
    have hloop : Pcb.outputLoop (min s.sndWnd s.cwnd) s.unsent s = s := by
      rw [h]
      rfl
    rw [heq, hloop, Pcb.outputDone, if_pos h]

theorem fill_tcplen (seqno : SeqNum) : (fill seqno).tcplen = tcpWnd := by
  rw [InSeg.tcplen]
  show (List.replicate tcpWnd (0 : Byte)).length + 0 = tcpWnd
  rw [List.length_replicate, Nat.add_zero]

theorem fill_inseg (seqno : SeqNum) :
    (fill seqno).inseg = ⟨seqno, tcpWnd, false, false, List.replicate tcpWnd 0⟩ := by
  rw [InSeg.inseg]
  show OoSeg.mk seqno (List.replicate tcpWnd (0 : Byte)).length false false _ = _
  rw [List.length_replicate]
  rfl

/-- A segment that fills the window is taken. -/
theorem tcpReceive_fill {s : Pcb} {x : SeqNum} {n : ℕ} (alloc ack : Bool) (hstate : s.state = .established)
    (hnxt : s.rcvNxt = seqAt x n) (hwnd : s.rcvWnd = tcpWnd) (hedge : s.rcvAnnRightEdge = seqAt x tcpWnd)
    (hooseq : s.ooseq = []) (hmss : s.mss = 536) (hn : n < 2 ^ 31 + 536) :
    ∃ w, s.tcpReceive (fill s.rcvNxt) alloc ack =
      some ({ s with
        ooseq := [], rcvNxt := s.rcvNxt + BitVec.ofNat 32 tcpWnd, rcvWnd := 0, rcvAnnWnd := w }.tcpAck,
        ⟨List.replicate tcpWnd 0, false⟩) := by
  have h1 : tcpWnd = 5360 := rfl
  have hupdate : Pcb.tcpUpdateRcvAnnWnd { s with
      ooseq := [], rcvNxt := s.rcvNxt + BitVec.ofNat 32 tcpWnd, rcvWnd := s.rcvWnd - tcpWnd } ≠ none := by
    refine tcpUpdateRcvAnnWnd_ne_none (n := n + tcpWnd) (e := tcpWnd) ?_ hedge ?_ ?_ ?_
    · rw [seqAt_add, ← hnxt]
    · dsimp only
      omega
    · dsimp only
      omega
    · dsimp only
      rw [hmss]
      omega
  obtain ⟨r, hr⟩ := Option.ne_none_iff_exists'.1 hupdate
  obtain ⟨w, heq, -⟩ := Pcb.tcpUpdateRcvAnnWnd_announces hr
  refine ⟨w, ?_⟩
  have hfront : Pcb.trimFront s.rcvNxt (fill s.rcvNxt).inseg (fill s.rcvNxt).tcplen =
      some (fill s.rcvNxt).inseg := by
    rw [Pcb.trimFront, fill_inseg, if_neg]
    rw [SeqBetween, seqGeq_iff]
    bv_omega
  have hwindow : s.inWindow s.rcvNxt := by
    rw [Pcb.inWindow, SeqBetween, seqGeq_iff, seqLeq_iff, hwnd, h1]
    bv_omega
  have hcut : Pcb.trimToWindow s.rcvNxt s.rcvWnd (fill s.rcvNxt).inseg = some (fill s.rcvNxt).inseg := by
    rw [Pcb.trimToWindow, fill_inseg, if_neg]
    rw [hwnd]
    show ¬tcpWnd < toU16 (tcpWnd + 0)
    decide
  have hqueue : Pcb.trimToOoseq s.ooseq (fill s.rcvNxt).inseg = some ((fill s.rcvNxt).inseg, []) := by
    rw [hooseq, fill_inseg]
    rfl
  have hlen : toU16 (fill s.rcvNxt).inseg.tcpLen = tcpWnd := by
    rw [fill_inseg]
    rfl
  have haccept : { s with ooseq := [] }.acceptSeg s.rcvNxt tcpWnd = some { s with
      ooseq := [], rcvNxt := s.rcvNxt + BitVec.ofNat 32 tcpWnd, rcvWnd := 0, rcvAnnWnd := w } := by
    rw [Pcb.acceptSeg, if_pos (by show tcpWnd ≤ s.rcvWnd; omega)]
    show Option.map Prod.snd (Pcb.tcpUpdateRcvAnnWnd { s with
      ooseq := [], rcvNxt := s.rcvNxt + BitVec.ofNat 32 tcpWnd, rcvWnd := s.rcvWnd - tcpWnd }) = _
    rw [hr, Option.map_some, heq, show s.rcvWnd - tcpWnd = 0 by omega]
  have hseq : (fill s.rcvNxt).inseg.seqno = s.rcvNxt := rfl
  have hack : (fill s.rcvNxt).ack = false := rfl
  have hdup : ¬((fill s.rcvNxt).inseg.seqno = (fill s.rcvNxt).seqno ∧
      SeqLt (fill s.rcvNxt).seqno s.rcvNxt) := by
    rintro ⟨-, hlt⟩
    rw [show (fill s.rcvNxt).seqno = s.rcvNxt from rfl, seqLt_iff] at hlt
    bv_omega
  rw [Pcb.tcpReceive, if_pos (by rw [hstate]; rfl), hack, if_neg Bool.false_ne_true, Option.bind_some,
    Pcb.receiveData, if_pos ⟨by rw [fill_tcplen]; decide, by rw [hstate]; rfl⟩, hfront, Option.bind_some]
  rw [if_neg hdup]
  dsimp only
  rw [if_pos (show s.inWindow (fill s.rcvNxt).inseg.seqno from hwindow), if_pos hseq.symm,
    Pcb.receiveInSequence, hcut, Option.bind_some, hqueue, Option.bind_some, hlen, hseq, haccept]
  show some (_, Pcb.Received.mk (fill s.rcvNxt).inseg.p (fill s.rcvNxt).inseg.fin) = _
  rw [fill_inseg]

theorem tcpAck_eq (s : Pcb) : ∃ d a, s.tcpAck = { s with ackDelay := d, ackNow := a } := by
  rw [Pcb.tcpAck]
  split_ifs
  · exact ⟨false, true, rfl⟩
  · exact ⟨true, s.ackNow, rfl⟩

/-- The input of a segment that fills the window. -/
theorem input_fill {x : SeqNum} {n : ℕ} {c : Conn} (h : Fed x n tcpWnd c) (hn : n < 2 ^ 31 + 536)
    (env : InEnv) :
    ∃ w d a, Conn.step (.input (fill c.pcb.rcvNxt) env) c = some { c with
      pcb := { c.pcb with
        ooseq := [], rcvNxt := c.pcb.rcvNxt + BitVec.ofNat 32 tcpWnd, rcvWnd := 0, rcvAnnWnd := w
        ackDelay := d, ackNow := a }
      phase := .input ⟨List.replicate tcpWnd 0, false⟩ } := by
  obtain ⟨w, hw⟩ :=
    tcpReceive_fill env.alloc env.ack h.state h.rcvNxt h.rcvWnd h.edge h.ooseq h.mss hn
  obtain ⟨d, a, hack⟩ := tcpAck_eq { c.pcb with
    ooseq := [], rcvNxt := c.pcb.rcvNxt + BitVec.ofNat 32 tcpWnd, rcvWnd := 0, rcvAnnWnd := w }
  rw [hack] at hw
  refine ⟨w, d, a, ?_⟩
  have hidle : ¬(c.busy = true ∨ c.pcb.state = .closed) := by
    rw [Conn.busy, h.phase, h.state]
    decide
  have hwait : c.pcb.state ≠ .timeWait := by
    rw [h.state]
    decide
  have hprocess : c.pcb.tcpProcess (fill c.pcb.rcvNxt) env = some ({ c.pcb with
      ooseq := [], rcvNxt := c.pcb.rcvNxt + BitVec.ofNat 32 tcpWnd, rcvWnd := 0, rcvAnnWnd := w
      ackDelay := d, ackNow := a }, ⟨false, false, ⟨List.replicate tcpWnd 0, false⟩⟩) := by
    rw [Pcb.tcpProcess, if_neg (by exact Bool.false_ne_true), if_neg (by exact fun h ↦ Bool.false_ne_true h.1)]
    show c.pcb.processState (fill c.pcb.rcvNxt) env = _
    rw [Pcb.processState, h.state]
    dsimp only
    rw [hw]
    rfl
  rw [Conn.step, if_neg hidle, if_neg hwait, Conn.input, if_neg (by rw [h.refusedData]; simp), hprocess,
    Option.map_some]
  dsimp only
  rw [if_neg Bool.false_ne_true, if_neg Bool.false_ne_true, if_neg (by rw [h.state]; decide)]

/-- Up to here a connection takes what arrives, and tells the application. -/
theorem Fed.take {x : SeqNum} {n : ℕ} {c : Conn} (h : Fed x n tcpWnd c) (hn : n < 2 ^ 31 + 536)
    (env : InEnv) :
    ∃ c', runLabels Conn.step [.input (fill c.pcb.rcvNxt) env, .recv true false, .inputDone false] c =
      some c' ∧ Fed x (n + tcpWnd) 0 c' := by
  obtain ⟨w, d, a, hinput⟩ := input_fill h hn env
  generalize hs : ({ c.pcb with
    ooseq := [], rcvNxt := c.pcb.rcvNxt + BitVec.ofNat 32 tcpWnd, rcvWnd := 0, rcvAnnWnd := w
    ackDelay := d, ackNow := a } : Pcb) = s at hinput
  obtain ⟨o, m, hout⟩ := tcpOutput_fails (s := s) false (by rw [← hs]; exact h.unsent)
  have hdata : List.replicate tcpWnd (0 : Byte) ≠ [] := by
    rw [Ne, List.replicate_eq_nil_iff]
    decide
  have hrecv : Conn.step (.recv true false) { c with
      pcb := s, phase := .input ⟨List.replicate tcpWnd 0, false⟩ } = some { c with
      pcb := s, phase := .input ⟨[], false⟩, delivered := c.delivered ++ List.replicate tcpWnd 0 } := by
    rw [Conn.step, Conn.recv]
    dsimp only
    rw [if_neg hdata, if_neg (by rw [← hs]; simp [h.refusedData]), if_neg (by rw [← hs]; simp [h.rxClosed]),
      if_pos rfl]
  refine ⟨{ c with
      pcb := { s with unsentOversize := o, nagleMemErr := m }, phase := .idle
      delivered := c.delivered ++ List.replicate tcpWnd 0 }, ?_, ?_⟩
  · rw [runLabels_cons, hinput, Option.bind_some, runLabels_cons, hrecv, Option.bind_some, runLabels_cons,
      Conn.step, Conn.inputDone]
    dsimp only
    rw [if_neg (not_not.2 rfl), if_neg Bool.false_ne_true, hout, Option.bind_some, runLabels_nil]
  · subst hs
    exact ⟨rfl, h.state, by rw [seqAt_add, ← h.rcvNxt], rfl, h.edge, rfl, h.refusedData, h.rxClosed,
      h.unsent, h.mss, by dsimp only; rw [List.length_append, h.delivered, List.length_replicate]⟩

/-- The application gives the window back, and the announcement is lost. -/
theorem Fed.give {x : SeqNum} {n : ℕ} {c : Conn} (h : Fed x n 0 c) (hn : n < 2 ^ 31 + 536) (hle : tcpWnd ≤ n) :
    ∃ c', Conn.step (.call (.recved tcpWnd false)) c = some c' ∧ Fed x n tcpWnd c' := by
  have h1 : tcpWnd = 5360 := rfl
  have hupdate : Pcb.tcpUpdateRcvAnnWnd { c.pcb with rcvWnd := tcpWnd } ≠ none := by
    refine tcpUpdateRcvAnnWnd_ne_none (n := n) (e := tcpWnd) h.rcvNxt h.edge le_rfl ?_ ?_
    · dsimp only
      omega
    · dsimp only
      rw [h.mss]
      omega
  obtain ⟨r, hr⟩ := Option.ne_none_iff_exists'.1 hupdate
  obtain ⟨w, heq, -⟩ := Pcb.tcpUpdateRcvAnnWnd_announces hr
  have hrecved : ∃ o m a, c.pcb.tcpRecved tcpWnd false false = some { c.pcb with
      rcvWnd := tcpWnd, rcvAnnWnd := w, ackNow := a, unsentOversize := o, nagleMemErr := m } := by
    rw [Pcb.tcpRecved, if_pos (by rw [h.rcvWnd, h1]; omega),
      show min (c.pcb.rcvWnd + tcpWnd) tcpWnd = tcpWnd by rw [h.rcvWnd]; rfl, hr, Option.map_some, heq]
    by_cases hnow : (tcpWndUpdateThreshold : ℤ) ≤ r.1.toInt
    · rw [if_pos hnow]
      obtain ⟨o, m, hout⟩ := tcpOutput_fails (s := { c.pcb with
        rcvWnd := tcpWnd, rcvAnnWnd := w, ackNow := true }) false h.unsent
      exact ⟨o, m, true, by rw [hout]⟩
    · rw [if_neg hnow]
      exact ⟨c.pcb.unsentOversize, c.pcb.nagleMemErr, c.pcb.ackNow, rfl⟩
  obtain ⟨o, m, a, hrecved⟩ := hrecved
  have hopen : c.pcb.state ≠ .closed := by
    rw [h.state]
    decide
  refine ⟨{ c with pcb := { c.pcb with
      rcvWnd := tcpWnd, rcvAnnWnd := w, ackNow := a, unsentOversize := o, nagleMemErr := m } }, ?_, ?_⟩
  · rw [Conn.step, Pcb.appCall, if_neg hopen, Conn.busy, h.phase]
    show Option.map _ (c.pcb.tcpRecved tcpWnd false false) = _
    rw [hrecved, Option.map_some]
    dsimp only
    rw [if_neg hopen]
  · exact ⟨h.phase, h.state, h.rcvNxt, rfl, h.edge, h.ooseq, h.refusedData, h.rxClosed, h.unsent, h.mss, h.delivered⟩

/-- The window is filled and given back `k` times. -/
theorem Fed.repeat {x : SeqNum} {c : Conn} (h : Fed x 0 tcpWnd c) (k : ℕ) (hk : tcpWnd * k < 2 ^ 31 + 536) :
    ∃ ls c', runLabels Conn.step ls c = some c' ∧ Fed x (tcpWnd * k) tcpWnd c' ∧
      (ls.map recvedBytes).sum = tcpWnd * k := by
  have h1 : tcpWnd = 5360 := rfl
  induction k with
  | zero => exact ⟨[], c, runLabels_nil .., h, rfl⟩
  | succ k ih =>
    have hmul : tcpWnd * (k + 1) = tcpWnd * k + tcpWnd := Nat.mul_succ ..
    obtain ⟨ls, c₁, hrun, hfed, hsum⟩ := ih (by omega)
    obtain ⟨c₂, htake, hfed₂⟩ := hfed.take (by omega) ⟨false, false, 0, [], .ok⟩
    obtain ⟨c₃, hgive, hfed₃⟩ := hfed₂.give (by omega) (by omega)
    rw [← hmul] at hfed₃
    have hcall : runLabels Conn.step [.call (.recved tcpWnd false)] c₂ = some c₃ := by
      rw [runLabels_cons, hgive, Option.bind_some, runLabels_nil]
    refine ⟨_, c₃, runLabels_append_some hrun (runLabels_append_some htake hcall), hfed₃, ?_⟩
    · rw [List.map_append, List.sum_append, hsum, hmul]
      rfl

/-- A window that was filled cannot be given back once its end is 2^31 ahead of the announced edge. -/
theorem Fed.refuses {x : SeqNum} {n : ℕ} {c : Conn} (h : Fed x n 0 c) (hn : 2 ^ 31 + tcpWnd ≤ n)
    (hle : n < 2 ^ 32 - 2 ^ 16) (input ack : Bool) : c.pcb.tcpRecved tcpWnd input ack = none := by
  have h1 : tcpWnd = 5360 := rfl
  have hupdate : Pcb.tcpUpdateRcvAnnWnd { c.pcb with rcvWnd := tcpWnd } = none := by
    have hmss : min (tcpWnd / 2) c.pcb.mss = 536 := by rw [h.mss]; rfl
    rw [Pcb.tcpUpdateRcvAnnWnd]
    dsimp only
    rw [hmss, h.rcvNxt, h.edge, ← seqAt_add, ← seqAt_add]
    rw [if_neg, if_neg, if_neg]
    · rw [seqAt, seqAt, add_sub_add_left_eq_sub, h1, BitVec.toNat_sub, BitVec.toNat_ofNat, BitVec.toNat_ofNat]
      omega
    · rw [seqGt_iff, seqAt, seqAt, add_sub_add_left_eq_sub, h1]
      bv_omega
    · rw [seqGeq_iff, seqAt, seqAt, add_sub_add_left_eq_sub, h1]
      bv_omega
  rw [Pcb.tcpRecved, if_pos (by rw [h.rcvWnd, h1]; omega),
    show min (c.pcb.rcvWnd + tcpWnd) tcpWnd = tcpWnd by rw [h.rcvWnd]; rfl, hupdate, Option.map_none]

/-- `Fed`, evaluated. -/
def Conn.fedView (c : Conn) : Bool :=
  ¬c.busy ∧ c.pcb.state = .established ∧ c.pcb.rcvNxt = 1 ∧ c.pcb.rcvWnd = tcpWnd ∧
    c.pcb.rcvAnnRightEdge = 1 + BitVec.ofNat 32 tcpWnd ∧ c.pcb.ooseq = [] ∧ c.pcb.refusedData = none ∧
    c.pcb.rxClosed = false ∧ c.pcb.unsent = [] ∧ c.pcb.mss = 536 ∧ c.delivered = []

theorem exists_fed : ∃ c, runLabels Conn.step fedLabels (Conn.start fedPcb) = some c ∧ Fed 1 0 tcpWnd c := by
  refine exists_run_of_observe Conn.fedView true (by decide) fun c _ hobs ↦ ?_
  obtain ⟨hbusy, hstate, hnxt, hwnd, hedge, hooseq, hrefused, hrx, hunsent, hmss, hdelivered⟩ :=
    of_decide_eq_true hobs
  refine ⟨?_, hstate, ?_, hwnd, hedge, hooseq, hrefused, hrx, hunsent, hmss, ?_⟩
  · exact of_not_not fun h ↦ hbusy (decide_eq_true h)
  · rw [hnxt]
    rfl
  · rw [hdelivered]
    rfl

end Lwip.Tcp
