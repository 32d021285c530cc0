import Mathlib.Algebra.BigOperators.Group.List.Basic
import Mathlib.Logic.Relation
import LwipPoc.Tcp.ReceiverFrame
import LwipPoc.Tcp.SendCalls

/-!
# The accounts of a connection

A control block keeps **running totals** beside what they are totals of: the windows that it has promised
the peer, the room in its send buffer, the length of its queues. Many functions change them, each in its
own way, so here it is said once what may happen to the accounts of a control block (`Edit`), and shown
of every function that it does nothing else (`Edits`). What is true of the totals in every run is then a
case analysis over the edits.

An edit is as precise as the totals need it. It keeps where a segment stands in its queue and what decides
that it is moved, but not what it carries, and nothing of congestion control or timers.

Two parameters say what the segment that is being processed may do: `acks` has the sequence numbers that
it may acknowledge, and `data` says that its data is looked at, behind the calls of the application.
-/

namespace Lwip.Tcp

/-! ### Accounts -/

/-- The running totals of a control block, and what they are about. -/
structure Accounts where
  state : TcpState
  rcvNxt : SeqNum
  rcvWnd : ℕ
  rcvAnnWnd : ℕ
  rcvAnnRightEdge : SeqNum
  lastack : SeqNum
  sndNxt : SeqNum
  sndLbb : SeqNum
  sndWnd : ℕ
  sndWndMax : ℕ
  sndBuf : ℕ
  sndQueuelen : ℕ
  unsentOversize : ℕ
  unsent : List TcpSeg
  unacked : List TcpSeg

/-- The accounts of a control block. -/
def Pcb.accounts (s : Pcb) : Accounts :=
  ⟨s.state, s.rcvNxt, s.rcvWnd, s.rcvAnnWnd, s.rcvAnnRightEdge, s.lastack, s.sndNxt, s.sndLbb, s.sndWnd,
    s.sndWndMax, s.sndBuf, s.sndQueuelen, s.unsentOversize, s.unsent, s.unacked⟩

/-- The states in which a control block has no queues. -/
def TcpState.over : TcpState → Bool
  | .closed | .listen | .timeWait => true
  | _ => false

/-- The pbufs of the segments on a queue. -/
def clens (q : List TcpSeg) : ℕ := (q.map TcpSeg.clen).sum

theorem clens_cons (seg : TcpSeg) (q : List TcpSeg) : clens (seg :: q) = seg.clen + clens q := by
  rw [clens, List.map_cons, List.sum_cons, clens]

theorem clens_append (q r : List TcpSeg) : clens (q ++ r) = clens q + clens r := by
  rw [clens, List.map_append, List.sum_append, clens, clens]

theorem clens_perm {q r : List TcpSeg} (h : q.Perm r) : clens q = clens r := (h.map TcpSeg.clen).sum_eq

theorem insertSorted_perm (seg : TcpSeg) (q : List TcpSeg) : (Pcb.insertSorted seg q).Perm (seg :: q) := by
  have hsplit := List.takeWhile_append_dropWhile (p := fun x : TcpSeg ↦ decide (SeqLt x.seqno seg.seqno))
    (l := q)
  exact List.perm_middle.trans (.of_eq (congrArg (seg :: ·) hsplit))

theorem insertUnacked_perm (seg : TcpSeg) (q : List TcpSeg) : (Pcb.insertUnacked seg q).Perm (seg :: q) := by
  rw [Pcb.insertUnacked]
  split
  · rename_i hnil
    rw [List.getLast?_eq_none_iff.1 hnil]
  · split_ifs
    · exact insertSorted_perm seg q
    · exact List.perm_append_singleton seg q

/-- New segments for `n` bytes at `x`, one behind the other. -/
def Laid : SeqNum → ℕ → List TcpSeg → Prop
  | _, n, [] => n = 0
  | x, n, seg :: q =>
    (seg.seqno = x ∧ seg.syn = false ∧ seg.fin = false ∧ 0 < seg.clen) ∧
      0 < seg.data.length ∧ seg.data.length ≤ n ∧
      Laid (x + BitVec.ofNat 32 seg.data.length) (n - seg.data.length) q

namespace Accounts

/-- A segment has gone out, and with it the window that is announced. -/
def announce (a : Accounts) : Accounts :=
  { a with rcvAnnRightEdge := a.rcvNxt + BitVec.ofNat 32 a.rcvAnnWnd }

/-- The first segment on `unsent` has gone out. -/
def sendHead (a : Accounts) (seg : TcpSeg) (rest : List TcpSeg) : Accounts :=
  { a with
    unsent := rest
    sndNxt := if SeqLt a.sndNxt seg.endSeq then seg.endSeq else a.sndNxt
    unacked := if 0 < seg.tcpLen then Pcb.insertUnacked seg a.unacked else a.unacked }

/-- A window to be announced, as `tcp_update_rcv_ann_wnd` finds it; `mss` is its threshold. -/
def Announces (mss : ℕ) (rcvNxt : SeqNum) (rcvWnd : ℕ) (edge : SeqNum) (wnd : ℕ) : Prop :=
  if SeqGeq (rcvNxt + BitVec.ofNat 32 rcvWnd) (edge + BitVec.ofNat 32 mss) then wnd = rcvWnd
  else if SeqGt rcvNxt edge then wnd = 0
  else wnd = (edge - rcvNxt).toNat ∧ wnd ≤ 0xffff

/-- Nothing can be added to `unsent`: no window is known, and there is no room in the last segment. -/
def Blank (a : Accounts) : Prop :=
  a.sndWndMax = 0 ∧ a.unsentOversize = 0 ∧ ∀ last ∈ a.unsent.getLast?, last.len = 0

/-- The states in which the own `FIN` may be sent. -/
def Closable (a : Accounts) : Prop :=
  a.state = .synRcvd ∨ a.state = .established ∨ a.state = .closeWait

/-- **What may happen to the accounts.** -/
inductive Edit (acks : SeqNum → Prop) (data : Prop) : Accounts → Accounts → Prop
  | announce (a) : Edit acks data a a.announce
  | sendHead (a seg rest) (hunsent : a.unsent = seg :: rest)
      (hwnd : (seg.seqno - a.lastack + BitVec.ofNat 32 seg.len).toNat ≤ a.sndWnd) :
      Edit acks data a (a.sendHead seg rest)
  | clear (a) : Edit acks data a { a with unsentOversize := 0 }
  /-- A timeout. -/
  | requeue (a) : Edit acks data a { a with unsent := a.unacked ++ a.unsent, unacked := [] }
  | rexmit (a seg rest oversize) (hunacked : a.unacked = seg :: rest)
      (hoversize : oversize = 0 ∨ oversize = a.unsentOversize) :
      Edit acks data a { a with
        unacked := rest, unsent := Pcb.insertSorted seg a.unsent, unsentOversize := oversize }
  /-- The `FIN` goes with the last segment. -/
  | mark (a qs seg) (hclosable : a.Closable) (hunsent : a.unsent = qs ++ [seg]) (hsyn : seg.syn = false) :
      Edit acks data a { a with unsent := qs ++ [{ seg with fin := true }] }
  /-- The `FIN` goes alone. -/
  | enqueue (a) (hclosable : a.Closable) (hlen : a.sndQueuelen < tcpSndQueuelen) (hbuf : 0 < a.sndBuf) :
      Edit acks data a { a with
        unsent := a.unsent ++ [⟨a.sndLbb, [], false, true, 1⟩]
        unsentOversize := 0
        sndLbb := a.sndLbb + 1
        sndBuf := a.sndBuf - 1
        sndQueuelen := toU16 (a.sndQueuelen + 1) }
  /-- The counter is written as it is. -/
  | recount (a) : Edit acks data a { a with sndQueuelen := toU16 a.sndQueuelen }
  /-- Some of the bytes go to the last segment, the others to new ones. -/
  | write (a v n clen q oversize) (hover : a.state.over = false) (hblank : ¬a.Blank)
      (hbuf : v.length + n ≤ a.sndBuf) (hlast : a.unsent = [] → v = [] ∧ clen = 0)
      (hlaid : Laid (a.sndLbb + BitVec.ofNat 32 v.length) n q) (hpos : 0 < v.length + n)
      (hlen : a.sndQueuelen + clen + clens q ≤ tcpSndQueuelen) :
      Edit acks data a { a with
        unsent := Pcb.extendLast a.unsent v clen ++ q
        unsentOversize := oversize
        sndLbb := a.sndLbb + BitVec.ofNat 32 (v.length + n)
        sndBuf := a.sndBuf - (v.length + n)
        sndQueuelen := a.sndQueuelen + clen + clens q }
  /-- Another state of the connection. -/
  | turn (a state) (hfrom : a.state ≠ .synSent) (hover : a.state.over = false) (hto : state ≠ .synSent)
      (hstate : state.over = false) : Edit acks data a { a with state := state }
  /-- The queues are purged. -/
  | drop (a state oversize) (hstate : state.over = true) :
      Edit acks data a
        { a with state := state, unsent := [], unacked := [], unsentOversize := oversize }
  /-- A control block without queues is freed. -/
  | remove (a state) (hover : a.state.over = true) (hstate : state.over = true) :
      Edit acks data a { a with state := state }
  | window (a wnd wndMax) (hstate : a.state ≠ .synSent) (hwnd : wnd < 2 ^ 16) :
      Edit acks data a { a with sndWnd := wnd, sndWndMax := wndMax }
  /-- New data is acknowledged; the segments `p` come off `unacked`. -/
  | ack (a ackno p u) (hstate : a.state ≠ .synSent) (hack : acks ackno)
      (hnew : SeqBetween ackno (a.lastack + 1) a.sndNxt) (hunacked : a.unacked = p ++ u)
      (hp : ∀ seg ∈ p, SeqLeq seg.endSeq ackno) (hu : ∀ seg ∈ u.head?, ¬SeqLeq seg.endSeq ackno)
      (hlen : clens p ≤ a.sndQueuelen) (hold : ¬SeqLeq ackno a.lastack) :
      Edit acks data a { a with
        lastack := ackno
        sndBuf := toU16 (a.sndBuf + toU16 (ackno - a.lastack).toNat)
        sndQueuelen := a.sndQueuelen - clens p
        unacked := u }
  /-- The segments `p` come off `unsent`. -/
  | trim (a p u oversize) (hstate : a.state ≠ .synSent) (hunsent : a.unsent = p ++ u)
      (hlen : clens p ≤ a.sndQueuelen) :
      Edit acks data a { a with
        sndQueuelen := a.sndQueuelen - clens p, unsent := u, unsentOversize := oversize }
  /-- The `SYN` is acknowledged with one of the peer. -/
  | synAcked (a seg rest rcvNxt wnd) (hstate : a.state = .synSent) (hunacked : a.unacked = seg :: rest)
      (hlen : 0 < a.sndQueuelen) (hwnd : wnd < 2 ^ 16) :
      Edit acks data a { a with
        state := .established
        rcvNxt := rcvNxt
        rcvAnnRightEdge := rcvNxt
        lastack := seg.seqno + 1
        sndWnd := wnd
        sndWndMax := wnd
        sndBuf := toU16 (a.sndBuf + 1)
        sndQueuelen := a.sndQueuelen - 1
        unacked := rest }
  /-- Sequence numbers are accepted. -/
  | accept (a n mss wnd) (hdata : data) (hn : n ≤ a.rcvWnd) (hmss : mss ≤ tcpWnd)
      (hwnd : Announces mss (a.rcvNxt + BitVec.ofNat 32 n) (a.rcvWnd - n) a.rcvAnnRightEdge wnd) :
      Edit acks data a { a with
        rcvNxt := a.rcvNxt + BitVec.ofNat 32 n, rcvWnd := a.rcvWnd - n, rcvAnnWnd := wnd }
  /-- The application gives back `n` bytes of the window. -/
  | recved (a n mss wnd) (hdata : ¬data) (hmss : mss ≤ tcpWnd)
      (hwnd : Announces mss a.rcvNxt (min (a.rcvWnd + n) tcpWnd) a.rcvAnnRightEdge wnd) :
      Edit acks data a { a with rcvWnd := min (a.rcvWnd + n) tcpWnd, rcvAnnWnd := wnd }
  /-- The `FIN` of the peer is given back. -/
  | fin (a) (hdata : ¬data) (hwnd : a.rcvWnd ≠ tcpWnd) :
      Edit acks data a { a with rcvWnd := a.rcvWnd + 1 }

/-- Any number of edits. -/
def Edits (acks : SeqNum → Prop) (data : Prop) : Accounts → Accounts → Prop :=
  Relation.ReflTransGen (Edit acks data)

theorem Edit.edits {acks : SeqNum → Prop} {data : Prop} {a b : Accounts} (h : Edit acks data a b) :
    Edits acks data a b := .single h

theorem Edits.of_eq {acks : SeqNum → Prop} {data : Prop} {a b : Accounts} (h : b = a) :
    Edits acks data a b := by
  rw [h]
  exact .refl

end Accounts

namespace Pcb

open Accounts (Edit Edits)

variable {acks : SeqNum → Prop} {data : Prop} {s t s' : Pcb}

/-- What is not on the accounts does not matter. -/
theorem edits_of_same {b : Accounts} (h : t.accounts = s.accounts) (he : Edits acks data t.accounts b) :
    Edits acks data s.accounts b := h ▸ he

/-! ### Sending -/

theorem emit_edits (seqno : SeqNum) (syn fin : Bool) (bs : List Byte) :
    Edits acks data s.accounts (s.emit seqno syn fin bs).accounts := (Edit.announce _).edits

theorem tcpSendEmptyAck_edits (alloc : Bool) :
    Edits acks data s.accounts (s.tcpSendEmptyAck alloc).accounts := by
  rw [tcpSendEmptyAck]
  split_ifs
  · exact (Edit.announce _).edits
  · exact .refl

theorem tcpOutputSegment_accounts (seg : TcpSeg) :
    (s.tcpOutputSegment seg).accounts = s.accounts.announce := by
  simp only [tcpOutputSegment, emit]
  split_ifs <;> rfl

theorem outputOne_accounts (seg : TcpSeg) (rest : List TcpSeg) :
    (s.outputOne seg rest).accounts = ({ s.accounts with unsent := rest }.announce).sendHead seg rest := by
  have hu : (if s.state ≠ .synSent then { s with unsent := rest, ackDelay := false, ackNow := false }
      else { s with unsent := rest } : Pcb).accounts = { s.accounts with unsent := rest } := by
    split_ifs <;> rfl
  rw [← hu, ← tcpOutputSegment_accounts seg]
  have hdone : ∀ v : Pcb, v.unsent = rest →
      (let v := if SeqLt v.sndNxt seg.endSeq then { v with sndNxt := seg.endSeq } else v
        if 0 < seg.tcpLen then { v with unacked := insertUnacked seg v.unacked } else v : Pcb).accounts =
        v.accounts.sendHead seg rest := by
    intro v hv
    subst hv
    show _ = { v.accounts with
      sndNxt := if SeqLt v.sndNxt seg.endSeq then seg.endSeq else v.sndNxt
      unacked := if 0 < seg.tcpLen then insertUnacked seg v.unacked else v.unacked }
    split_ifs <;> rfl
  refine hdone _ ?_
  rw [show ∀ v : Pcb, v.unsent = v.accounts.unsent from fun _ ↦ rfl, tcpOutputSegment_accounts, hu]
  rfl

theorem outputLoop_edits {wnd : ℕ} {q : List TcpSeg} (hs : s.unsent = q) (hwnd : wnd ≤ s.sndWnd) :
    Edits acks data s.accounts (outputLoop wnd q s).accounts := by
  induction q generalizing s with
  | nil => exact .refl
  | cons seg rest ih =>
    rw [outputLoop]
    split_ifs with hfits
    · exact .refl
    · have hone : Edits acks data s.accounts (s.outputOne seg rest).accounts := by
        rw [outputOne_accounts]
        exact .tail (.single (Edit.sendHead s.accounts seg rest hs (hfits.trans hwnd))) (Edit.announce _)
      have hkept : (s.outputOne seg rest).sndWnd = s.sndWnd :=
        congrArg Accounts.sndWnd (outputOne_accounts seg rest)
      exact hone.trans (ih (outputOne_unsent seg rest) (hwnd.trans hkept.ge))
    · exact .refl

theorem tcpOutput_edits (input alloc : Bool) :
    Edits acks data s.accounts (s.tcpOutput input alloc).accounts := by
  rcases tcpOutput_cases s input alloc with h | h | h
  · rw [h]
    exact .refl
  · rw [h]
    exact tcpSendEmptyAck_edits alloc
  · rw [h]
    have hloop : Edits acks data _ _ := outputLoop_edits rfl (Nat.min_le_left s.sndWnd s.cwnd)
    refine Relation.ReflTransGen.trans hloop ?_
    rw [outputDone]
    split_ifs
    · exact (Edit.clear _).edits
    · exact .refl

/-! ### Retransmission -/

theorem tcpRexmitRto_edits (alloc : Bool) :
    Edits acks data s.accounts (s.tcpRexmitRto alloc).accounts := by
  rw [tcpRexmitRto]
  split_ifs
  · exact .refl
  · refine Relation.ReflTransGen.trans ?_ (tcpOutput_edits false alloc)
    exact (Edit.requeue s.accounts).edits

theorem tcpRexmit_edits : Edits acks data s.accounts s.tcpRexmit.accounts := by
  rw [tcpRexmit]
  split
  · exact .refl
  · rename_i seg rest hs
    exact (Edit.rexmit s.accounts seg rest _ hs (ite_eq_or_eq _ _ _)).edits

theorem tcpRexmitFast_edits : Edits acks data s.accounts s.tcpRexmitFast.accounts := by
  rw [tcpRexmitFast]
  split_ifs
  · exact tcpRexmit_edits
  · exact .refl

theorem tcpZeroWindowProbe_edits (alloc : Bool) (junk : Byte) :
    Edits acks data s.accounts (s.tcpZeroWindowProbe alloc junk).accounts := by
  rw [tcpZeroWindowProbe]
  split
  · exact .refl
  · split_ifs
    · exact emit_edits ..
    · exact .refl

theorem tcpKeepalive_edits (alloc : Bool) :
    Edits acks data s.accounts (s.tcpKeepalive alloc).accounts := by
  rw [tcpKeepalive]
  split_ifs
  · exact emit_edits ..
  · exact .refl

theorem slowtmrRexmit_edits (env : TickEnv) :
    Edits acks data s.accounts (s.slowtmrRexmit env).accounts := by
  rw [slowtmrRexmit]
  by_cases hpersist : 0 < s.persistBackoff
  · rw [if_pos hpersist]
    refine iteInduction (motive := fun u : Pcb ↦ Edits acks data s.accounts u.accounts)
      (fun _ ↦ ?_) fun _ ↦ ?_
    · refine edits_of_same ?_ (tcpZeroWindowProbe_edits _ _)
      rfl
    · exact .refl
  · rw [if_neg hpersist]
    generalize hu : (if 0 ≤ s.rtime then { s with rtime := toS16 (s.rtime + 1) } else s) = u
    have hrtime : u.accounts = s.accounts := by
      rw [← hu]
      split_ifs <;> rfl
    refine edits_of_same hrtime ?_
    dsimp only
    by_cases hdue : u.unacked ≠ [] ∧ u.rto ≤ u.rtime
    · rw [if_pos hdue]
      refine edits_of_same ?_ (tcpRexmitRto_edits _)
      rfl
    · rw [if_neg hdue]
      exact .refl

/-! ### `tcp_write` -/

/-- What the loop of phase 3 makes. -/
theorem newSegs_laid {copy more : Bool} {alloc : ℕ → Bool} {i : ℕ} {seqno : SeqNum} {bs : List Byte}
    {acc r : NewSegs} (h : s.newSegs copy more alloc i seqno bs acc = some r)
    (hacc : acc.queuelen ≤ tcpSndQueuelen) :
    ∃ q, r.queue = acc.queue ++ q ∧ Laid seqno bs.length q ∧
      r.queuelen = acc.queuelen + clens q ∧ r.queuelen ≤ tcpSndQueuelen := by
  induction i generalizing seqno bs acc with
  | zero =>
    cases bs with
    | nil =>
      obtain rfl := Option.some.inj h
      exact ⟨[], by simp, rfl, rfl, hacc⟩
    | cons b bs => cases h
  | succ i ih =>
    cases bs with
    | nil =>
      obtain rfl := Option.some.inj h
      exact ⟨[], by simp, rfl, rfl, hacc⟩
    | cons b bs =>
      have hmss : 0 < s.mssLocal := by
        refine Nat.pos_of_ne_zero fun hzero ↦ ?_
        rw [newSegs_eq_none hzero] at h
        cases h
      rw [newSegs] at h
      simp only [Option.ite_none_left_eq_some, not_or, not_lt] at h
      obtain ⟨-, ⟨hlimit, -⟩, h⟩ := h
      have hpos : 0 < min (b :: bs).length s.mssLocal := lt_min (Nat.succ_pos _) hmss
      have hle : min (b :: bs).length s.mssLocal ≤ (b :: bs).length := Nat.min_le_left _ _
      generalize min (b :: bs).length s.mssLocal = n at h hpos hle
      -- the counter does not wrap, since its limit is checked in every round
      have hclen : 0 < (if copy = true then 1 else 2) ∧ (if copy = true then 1 else 2) ≤ 2 := by
        split_ifs <;> omega
      generalize (if copy = true then 1 else 2) = c at h hclen hlimit
      have hwrap : toU16 (acc.queuelen + c) = acc.queuelen + c :=
        Nat.mod_eq_of_lt (by have : tcpSndQueuelen = 40 := rfl; omega)
      have htake : ((b :: bs).take n).length = n := by
        rw [List.length_take]
        exact Nat.min_eq_left hle
      obtain ⟨q, hqueue, hlaid, hlen, hlen'⟩ := ih h hlimit
      refine ⟨⟨seqno, (b :: bs).take n, false, false, c⟩ :: q, ?_, ⟨⟨rfl, rfl, rfl, hclen.1⟩, ?_⟩, ?_, hlen'⟩
      · rw [hqueue, List.append_assoc]
        rfl
      · rw [htake, ← List.length_drop]
        exact ⟨hpos, hle, hlaid⟩
      · rw [hlen, clens_cons, hwrap, Nat.add_assoc]

theorem extension_zero : s.extension 0 = ⟨0, 0⟩ := by
  rw [extension]
  split
  · rfl
  · simp

theorem extension_of_blank (h : s.accounts.Blank) (len : ℕ) : s.extension len = ⟨0, 0⟩ := by
  rcases List.eq_nil_or_concat' s.unsent with hnil | ⟨qs, last, hs⟩
  · rw [extension, hnil]
    rfl
  · exact extension_syn hs h.2.1 (h.2.2 last (by show last ∈ s.unsent.getLast?; rw [hs]; simp))

theorem newSegs_nil (copy more : Bool) (alloc : ℕ → Bool) (i : ℕ) (seqno : SeqNum) (acc : NewSegs) :
    s.newSegs copy more alloc i seqno [] acc = some acc := by
  cases i <;> rfl

/-- Nothing is written. -/
theorem writeChecked_nil (copy more : Bool) (alloc : ℕ → Bool) :
    (s.writeChecked [] copy more alloc).2.accounts =
      { s.accounts with sndQueuelen := toU16 s.sndQueuelen } := by
  simp only [writeChecked, List.length_nil, extension_zero, List.drop_nil, newSegs_nil]
  simp [accounts, extendLast_nil]

theorem writeChecked_edits {arg : List Byte} {copy more : Bool} {alloc : ℕ → Bool} (harg : arg ≠ [])
    (hover : s.state.over = false) (hbuf : arg.length ≤ s.sndBuf)
    (hlen : s.sndQueuelen < tcpSndQueuelen) :
    Edits acks data s.accounts (s.writeChecked arg copy more alloc).2.accounts := by
  have hargpos : 0 < arg.length := List.length_pos_iff.2 harg
  have hext := s.extension_le arg.length
  rw [writeChecked]
  split
  · exact .refl
  split
  · exact .refl
  rename_i segs hsegs
  generalize hc : (if (s.extension arg.length).concat = 0 then 0 else 1) = clen at hsegs ⊢
  generalize hp : (s.extension arg.length).oversizeUsed + (s.extension arg.length).concat = pos
    at hsegs hext ⊢
  have hclen : clen ≤ 1 := by
    rw [← hc]
    split_ifs <;> omega
  have hwrap : toU16 (s.sndQueuelen + clen) = s.sndQueuelen + clen :=
    Nat.mod_eq_of_lt (by have : tcpSndQueuelen = 40 := rfl; omega)
  rw [hwrap] at hsegs
  obtain ⟨q, hqueue, hlaid, hcount, hlimit⟩ := newSegs_laid hsegs (by dsimp only; omega)
  have htake : (arg.take pos).length = pos := List.length_take_of_le hext
  have hsum : (arg.take pos).length + (arg.drop pos).length = arg.length := by
    rw [htake, List.length_drop]
    omega
  have hblank : ¬s.accounts.Blank := by
    intro hblank
    have hmss : s.mssLocal = 0 := by
      rw [mssLocal, show s.sndWndMax = 0 from hblank.1]
      exact Nat.min_zero _
    have hzero : pos = 0 := by
      rw [← hp, extension_of_blank hblank]
      rfl
    rw [hzero, List.drop_zero] at hsegs
    rcases arg with - | ⟨b, bs⟩
    · exact harg rfl
    · rw [newSegs_eq_none hmss] at hsegs
      cases hsegs
  have hlast : s.unsent = [] → arg.take pos = [] ∧ clen = 0 := by
    intro hnil
    have hzero : s.extension arg.length = ⟨0, 0⟩ := by
      rw [extension, hnil]
      rfl
    rw [hzero] at hp hc
    exact ⟨by rw [← hp]; rfl, hc.symm⟩
  have hedit : Edit acks data s.accounts _ := Edit.write s.accounts (arg.take pos) (arg.drop pos).length clen
    q segs.oversize hover hblank (hsum.trans_le hbuf) hlast (by rw [htake]; exact hlaid)
    (hsum.symm ▸ hargpos) (hcount ▸ hlimit)
  rw [hsum] at hedit
  refine Relation.ReflTransGen.trans hedit.edits (Edits.of_eq ?_)
  rw [hqueue, hcount, List.nil_append]
  rfl

theorem not_over_of_open {state : TcpState} (h : ¬(state ≠ .established ∧ state ≠ .closeWait ∧
    state ≠ .synSent ∧ state ≠ .synRcvd)) : state.over = false := by
  cases state <;> first | rfl | exact absurd ⟨nofun, nofun, nofun, nofun⟩ h

/-- What the checks of `tcp_write` find. -/
theorem tcpWriteChecks_cases {len : ℕ} {c : Err × Pcb} (h : s.tcpWriteChecks len = some c) :
    c.2.accounts = s.accounts ∧ (c.1 = .ok → c.2 = s ∧ s.state.over = false ∧ len ≤ s.sndBuf ∧
      (len ≠ 0 → s.sndQueuelen < tcpSndQueuelen)) := by
  rw [tcpWriteChecks] at h
  split_ifs at h with hstate hlen hbuf hroom hqueue hnone hempty
  all_goals obtain rfl := Option.some.inj h
  · exact ⟨rfl, by simp⟩
  all_goals have hover : s.state.over = false := not_over_of_open hstate
  · exact ⟨rfl, fun _ ↦ ⟨rfl, hover, by omega, fun hne ↦ absurd hlen hne⟩⟩
  · exact ⟨rfl, by simp⟩
  · exact ⟨rfl, by simp⟩
  · exact ⟨rfl, fun _ ↦ ⟨rfl, hover, by omega, fun _ ↦ by omega⟩⟩
  · exact ⟨rfl, fun _ ↦ ⟨rfl, hover, by omega, fun _ ↦ by omega⟩⟩

theorem tcpWrite_edits {arg : List Byte} {copy more : Bool} {alloc : ℕ → Bool} {r : Err × Pcb}
    (h : s.tcpWrite arg copy more alloc = some r) : Edits acks data s.accounts r.2.accounts := by
  obtain ⟨c, hc, h⟩ := Option.bind_eq_some_iff.1 h
  obtain ⟨hsame, hok⟩ := tcpWriteChecks_cases hc
  split at h
  · rename_i herr
    obtain ⟨hcs, hover, hbuf, hroom⟩ := hok herr
    split_ifs at h
    obtain rfl := Option.some.inj h
    rw [hcs]
    rcases eq_or_ne arg [] with rfl | harg
    · rw [writeChecked_nil]
      exact (Edit.recount _).edits
    · exact writeChecked_edits harg hover hbuf (hroom fun hnil ↦ harg (List.eq_nil_of_length_eq_zero hnil))
  · obtain rfl := Option.some.inj h
    exact .of_eq hsame

/-! ### Closing -/

theorem tcpEnqueueFlags_edits (alloc : Bool) (hclosable : s.accounts.Closable) :
    Edits acks data s.accounts (s.tcpEnqueueFlags false true alloc).2.accounts := by
  rw [tcpEnqueueFlags]
  split_ifs with hlen hbuf
  · exact .refl
  · exact .refl
  · exact .refl
  · exact (Edit.enqueue s.accounts hclosable (show s.sndQueuelen < _ by omega)
      (Nat.pos_of_ne_zero hbuf)).edits

theorem tcpSendFin_edits (alloc : Bool) (hclosable : s.accounts.Closable) :
    Edits acks data s.accounts (s.tcpSendFin alloc).2.accounts := by
  rw [tcpSendFin]
  rcases hlast : s.unsent.getLast? with - | seg
  · exact tcpEnqueueFlags_edits alloc hclosable
  · dsimp only
    split_ifs with hplain
    · obtain ⟨qs, hs⟩ := List.getLast?_eq_some_iff.1 hlast
      rw [hs, List.dropLast_concat]
      exact (Edit.mark s.accounts qs seg hclosable hs hplain.1).edits
    · exact tcpEnqueueFlags_edits alloc hclosable

/-- A purge, and the state that follows it. -/
theorem tcpPcbPurge_edits {state : TcpState} (hstate : state.over = true) :
    Edits acks data s.accounts { s.tcpPcbPurge with state := state }.accounts := by
  rw [tcpPcbPurge]
  split_ifs with hover
  · refine (Edit.remove s.accounts state ?_ hstate).edits
    rcases hover with hs | hs | hs <;> exact congrArg TcpState.over hs
  · exact (Edit.drop s.accounts state 0 hstate).edits

/-- Without anything to send, `tcp_output` sends at most an acknowledgement. -/
theorem tcpOutput_empty (input alloc : Bool) (hunsent : s.unsent = []) (hover : s.unsentOversize = 0) :
    (s.tcpOutput input alloc).accounts = s.accounts ∨
      (s.tcpOutput input alloc).accounts = s.accounts.announce := by
  rcases tcpOutput_cases s input alloc with h | h | h
  · rw [h]
    exact Or.inl rfl
  · rw [h, tcpSendEmptyAck]
    split_ifs
    · exact Or.inr rfl
    · exact Or.inl rfl
  · rw [h, hunsent, outputLoop, outputDone, if_pos hunsent, ← hover]
    exact Or.inl rfl

theorem tcpPcbRemove_edits (input alloc : Bool) :
    Edits acks data s.accounts (s.tcpPcbRemove input alloc).accounts := by
  by_cases hdelay : s.tcpPcbPurge.state ≠ .timeWait ∧ s.tcpPcbPurge.ackDelay = true
  · rw [tcpPcbRemove, if_pos hdelay]
    rw [tcpPcbPurge] at hdelay ⊢
    split_ifs with hover
    · refine Relation.ReflTransGen.tail (tcpOutput_edits (s := { s with ackNow := true }) input alloc) ?_
      refine Edit.remove _ .closed ?_ rfl
      show (tcpOutput { s with ackNow := true } input alloc).state.over = true
      rw [tcpOutput_state]
      rcases hover with hs | hs | hs <;> exact congrArg TcpState.over hs
    · -- the acknowledgement goes out before the control block is freed
      have hempty := tcpOutput_empty (s := { s with
        refusedData := none, ooseq := [], rtime := -1, unsent := [], unacked := [],
        unsentOversize := 0, ackNow := true }) input alloc rfl rfl
      rcases hempty with hsame | hsent
      · refine Relation.ReflTransGen.trans (Edit.drop s.accounts .closed 0 rfl).edits (Edits.of_eq ?_)
        exact congrArg (fun a : Accounts ↦ { a with state := .closed }) hsame
      · refine .tail (.single (Edit.announce s.accounts)) ?_
        have hdrop : Edit acks data _ _ := Edit.drop s.accounts.announce .closed 0 rfl
        refine (congrArg (Edit acks data s.accounts.announce) ?_).mp hdrop
        exact (congrArg (fun a : Accounts ↦ { a with state := .closed }) hsent).symm
  · rw [tcpPcbRemove, if_neg hdelay]
    exact tcpPcbPurge_edits rfl

/-- The `FIN` and the new state of `tcp_close_shutdown`. -/
theorem sendFin_edits {alloc ack input : Bool} {state : TcpState} {r : Err × Pcb}
    (hr : r = if (s.tcpSendFin alloc).1 = .ok then
      (.ok, tcpOutput { (s.tcpSendFin alloc).2 with state := state } input ack)
      else s.tcpSendFin alloc)
    (hclosable : s.accounts.Closable) (hto : state ≠ .synSent) (hstate : state.over = false) :
    Edits acks data s.accounts r.2.accounts := by
  subst hr
  have hfin : Edits acks data _ _ := tcpSendFin_edits alloc hclosable
  split_ifs
  · have hkept : (s.tcpSendFin alloc).2.state = s.state := (tcpSendFin_receiver alloc).state
    have hturn : Edit acks data (s.tcpSendFin alloc).2.accounts
        { (s.tcpSendFin alloc).2 with state := state }.accounts := by
      refine Edit.turn _ state ?_ ?_ hto hstate
      · show (s.tcpSendFin alloc).2.state ≠ _
        rw [hkept]
        rcases hclosable with hs | hs | hs <;> rw [show s.state = _ from hs] <;> nofun
      · show (s.tcpSendFin alloc).2.state.over = _
        rw [hkept]
        rcases hclosable with hs | hs | hs <;> exact congrArg TcpState.over hs
    exact (hfin.tail hturn).trans (tcpOutput_edits input ack)
  · exact hfin

theorem tcpCloseShutdown_edits {rst input alloc ack : Bool} {r : Err × Pcb}
    (h : s.tcpCloseShutdown rst input alloc ack = some r) :
    Edits acks data s.accounts r.2.accounts := by
  rw [tcpCloseShutdown] at h
  by_cases hreset : rst = true ∧ (s.state = .established ∨ s.state = .closeWait) ∧
      (s.refusedData.isSome = true ∨ s.rcvWnd ≠ tcpWnd)
  · rw [if_pos hreset] at h
    split_ifs at h
    · obtain rfl := Option.some.inj h
      exact tcpPcbPurge_edits rfl
    · obtain rfl := Option.some.inj h
      exact tcpPcbPurge_edits rfl
  · rw [if_neg hreset] at h
    rcases hs : s.state <;> rw [hs] at h <;> obtain rfl := Option.some.inj h
    case synSent => exact tcpPcbRemove_edits input ack
    case synRcvd => exact sendFin_edits rfl (Or.inl hs) (by decide) rfl
    case established => exact sendFin_edits rfl (Or.inr (Or.inl hs)) (by decide) rfl
    case closeWait => exact sendFin_edits rfl (Or.inr (Or.inr hs)) (by decide) rfl
    all_goals exact .refl

theorem tcpShutdown_edits {shutRx shutTx input alloc ack : Bool} {r : Err × Pcb}
    (h : s.tcpShutdown shutRx shutTx input alloc ack = some r) :
    Edits acks data s.accounts r.2.accounts := by
  rw [tcpShutdown] at h
  by_cases hboth : shutRx = true ∧ shutTx = true
  · rw [if_pos hboth] at h
    refine edits_of_same ?_ (tcpCloseShutdown_edits h)
    rfl
  · rw [if_neg hboth] at h
    generalize hu : (if shutRx = true then { s with rxClosed := true, refusedData := none } else s) = u
      at h
    have hsame : u.accounts = s.accounts := by
      rw [← hu]
      split_ifs <;> rfl
    refine edits_of_same hsame ?_
    dsimp only at h
    split_ifs at h
    · rcases hs : u.state <;> rw [hs] at h
      case synRcvd | established | closeWait => exact tcpCloseShutdown_edits h
      all_goals
        obtain rfl := Option.some.inj h
        exact .refl
    · obtain rfl := Option.some.inj h
      exact .refl

/-! ### The receive window -/

/-- What `tcp_update_rcv_ann_wnd` does. -/
theorem tcpUpdateRcvAnnWnd_announces {r : SeqNum × Pcb} (h : s.tcpUpdateRcvAnnWnd = some r) :
    ∃ wnd, r.2 = { s with rcvAnnWnd := wnd } ∧
      Accounts.Announces (min (tcpWnd / 2) s.mss) s.rcvNxt s.rcvWnd s.rcvAnnRightEdge wnd := by
  rw [tcpUpdateRcvAnnWnd] at h
  dsimp only at h
  simp only [Accounts.Announces]
  split_ifs at h ⊢ with hupdate hbehind hlimit
  · obtain rfl := Option.some.inj h
    exact ⟨_, rfl, rfl⟩
  · obtain rfl := Option.some.inj h
    exact ⟨_, rfl, rfl⟩
  · obtain rfl := Option.some.inj h
    exact ⟨_, rfl, rfl, hlimit⟩

theorem tcpRecved_edits {len : ℕ} {input ack : Bool} (h : s.tcpRecved len input ack = some s') :
    Edits acks False s.accounts s'.accounts := by
  rw [tcpRecved] at h
  split_ifs at h
  obtain ⟨r, hr, rfl⟩ := Option.map_eq_some_iff.1 h
  obtain ⟨wnd, heq, hwnd⟩ := tcpUpdateRcvAnnWnd_announces hr
  have hedit : Edit acks False s.accounts _ := Edit.recved s.accounts len _ wnd id
    ((Nat.min_le_left (tcpWnd / 2) s.mss).trans (Nat.div_le_self ..)) hwnd
  refine Relation.ReflTransGen.trans hedit.edits ?_
  rw [heq]
  dsimp only
  split_ifs
  · refine Relation.ReflTransGen.trans (Edits.of_eq ?_) (tcpOutput_edits _ _)
    rfl
  · exact .refl

/-! ### Calls of the application -/

theorem appCall_edits {input : Bool} {c : Call} (h : s.appCall input c = some s') :
    Edits acks False s.accounts s'.accounts := by
  rw [appCall.eq_def] at h
  split_ifs at h
  cases c with
  | write arg copy more alloc =>
    obtain ⟨r, hr, rfl⟩ := Option.map_eq_some_iff.1 h
    exact tcpWrite_edits hr
  | close alloc ack =>
    obtain ⟨r, hr, rfl⟩ := Option.map_eq_some_iff.1 h
    refine edits_of_same ?_ (tcpCloseShutdown_edits hr)
    rfl
  | shutdown shutRx shutTx alloc ack =>
    obtain ⟨r, hr, rfl⟩ := Option.map_eq_some_iff.1 h
    exact tcpShutdown_edits hr
  | recved len ack => exact tcpRecved_edits h
  | output ack =>
    obtain rfl := Option.some.inj h
    exact tcpOutput_edits input ack
  | nodelay on =>
    obtain rfl := Option.some.inj h
    exact .of_eq rfl
  | abort ack =>
    obtain rfl := Option.some.inj h
    exact tcpPcbRemove_edits input ack

theorem appCalls_edits {input : Bool} {cs : List Call} (h : s.appCalls input cs = some s') :
    Edits acks False s.accounts s'.accounts := by
  induction cs generalizing s with
  | nil =>
    obtain rfl := Option.some.inj h
    exact .refl
  | cons c cs ih =>
    obtain ⟨u, hu, h⟩ := Option.bind_eq_some_iff.1 h
    exact (appCall_edits hu).trans (ih h)

end Pcb

end Lwip.Tcp
