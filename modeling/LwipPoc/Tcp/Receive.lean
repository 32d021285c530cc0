import LwipPoc.Tcp.Api

/-!
# Receiving

`tcp_receive` of `tcp_in.c`, in its two halves: what an **acknowledgement** does to the send queues, and
what the **data** of a segment does to the receiver.

Data in sequence is passed on, cut to the window and against the out-of-sequence queue, and with it the
queued segments that it reaches. Data out of sequence is put on the queue `ooseq`. There is a case for
the empty queue, for a place in front of it, for a place between two segments, for the sequence number of
a queued segment, and for the end; each of them cuts the neighbours in its own way.

A failed assertion is `none`. The pbufs of a segment are one list of bytes here, so that `pbuf_realloc` is
`List.take` and the loop that moves the payload pointer is `List.drop`.
-/

namespace Lwip.Tcp

/-- A segment that arrives for the connection, as `tcp_input` takes it apart. It has come in an IP packet,
so that its length is limited. -/
structure InSeg where
  seqno : SeqNum
  ackno : SeqNum
  wnd : ℕ
  syn : Bool
  fin : Bool
  rst : Bool
  ack : Bool
  /-- The MSS option, if `tcp_parseopt` finds one. -/
  mss : Option ℕ
  payload : List Byte
  wnd_lt : wnd < 2 ^ 16 := by decide
  payload_length_le : payload.length ≤ 0xffff - 40 := by decide

/-- `tcplen`. -/
def InSeg.tcplen (g : InSeg) : ℕ := g.payload.length + if g.syn || g.fin then 1 else 0

/-- `inseg`. -/
def InSeg.inseg (g : InSeg) : OoSeg := ⟨g.seqno, g.payload.length, g.syn, g.fin, g.payload⟩

namespace Pcb

/-! ### Acknowledgements -/

/-- The update of the send window. -/
def updateWindow (s : Pcb) (g : InSeg) : Pcb :=
  if SeqLt s.sndWl1 g.seqno ∨ (s.sndWl1 = g.seqno ∧ SeqLt s.sndWl2 g.ackno) ∨
      (s.sndWl2 = g.ackno ∧ s.sndWnd < g.wnd) then
    { s with
      sndWnd := g.wnd
      sndWndMax := max s.sndWndMax g.wnd
      sndWl1 := g.seqno
      sndWl2 := g.ackno
      persistCnt := if g.wnd = 0 ∧ s.persistBackoff = 0 then 0 else s.persistCnt
      persistBackoff :=
        if g.wnd = 0 then if s.persistBackoff = 0 then 1 else s.persistBackoff else 0 }
  else s

/-- One more duplicate; the counter stays at its largest value. -/
def countDupack (s : Pcb) : Pcb := if s.dupacks + 1 < 2 ^ 8 then { s with dupacks := s.dupacks + 1 } else s

/-- The congestion window grows by one segment, unless that overflows. -/
def inflateCwnd (s : Pcb) : Pcb :=
  if s.cwnd < toU16 (s.cwnd + s.mss) then { s with cwnd := toU16 (s.cwnd + s.mss) } else s

/-- An acknowledgement of nothing new; `rightWndEdge` is the edge of the window before the update. The
third duplicate starts the fast retransmission. -/
def duplicateAck (s : Pcb) (g : InSeg) (rightWndEdge : SeqNum) : Pcb :=
  let s := { s with acked := 0 }
  if g.tcplen = 0 ∧ s.sndWl2 + BitVec.ofNat 32 s.sndWnd = rightWndEdge ∧ 0 ≤ s.rtime ∧
      s.lastack = g.ackno then
    let s := s.countDupack
    if 3 < s.dupacks then s.inflateCwnd
    else if s.dupacks = 3 then s.tcpRexmitFast
    else s
  else { s with dupacks := 0 }

/-- The congestion window after an acknowledgement of new data. -/
def growCwnd (s : Pcb) : Pcb :=
  if s.cwnd < s.ssthresh then s.inflateCwnd
  else
    let newCwnd := toU16 (s.cwnd + s.mss * s.mss / s.cwnd)
    if s.cwnd < newCwnd then { s with cwnd := newCwnd } else s

/-- The accounts of a segment that has been taken off its queue, acknowledged. -/
def freeAcked (s : Pcb) (seg : TcpSeg) : Option Pcb :=
  if s.sndQueuelen < seg.clen then none
  else
    let s := { s with
      acked := if s.acked ≠ 0 ∧ seg.fin = true then s.acked - 1 else s.acked
      sndQueuelen := s.sndQueuelen - seg.clen }
    if s.sndQueuelen ≠ 0 ∧ s.unacked = [] ∧ s.unsent = [] then none else some s

/-- The loop that removes acknowledged segments from `unacked`. -/
def ackUnacked (ackno : SeqNum) : List TcpSeg → Pcb → Option Pcb
  | [], s => some s
  | seg :: rest, s =>
    if SeqLeq seg.endSeq ackno then
      (freeAcked { s with unacked := rest } seg).bind (ackUnacked ackno rest)
    else some s

/-- The loop that removes acknowledged segments from `unsent`, where retransmission has put them. -/
def ackUnsent (ackno : SeqNum) : List TcpSeg → Pcb → Option Pcb
  | [], s => some s
  | seg :: rest, s =>
    if SeqBetween ackno seg.endSeq s.sndNxt then
      (freeAcked { s with
        unsent := rest
        unsentOversize := if rest = [] then 0 else s.unsentOversize } seg).bind
        (ackUnsent ackno rest)
    else some s

/-- The counters after an acknowledgement of new data. -/
def countAcked (s : Pcb) (ackno : SeqNum) : Pcb :=
  let s := if s.infr then { s with infr := false, cwnd := s.ssthresh } else s
  let acked := toU16 (ackno - s.lastack).toNat
  let s := { s with
    nrtx := 0
    rto := toS16 (s.sa / 8 + s.sv)
    acked := acked
    sndBuf := toU16 (s.sndBuf + acked)
    dupacks := 0
    lastack := ackno }
  s.growCwnd

/-- An acknowledgement of new data. -/
def newAck (s : Pcb) (ackno : SeqNum) : Option Pcb :=
  let s := s.countAcked ackno
  (ackUnacked ackno s.unacked s).map fun s ↦
    { s with rtime := if s.unacked = [] then -1 else 0 }

/-- The estimation of the round-trip time. -/
def estimateRtt (s : Pcb) (ackno : SeqNum) : Pcb :=
  if s.rttest ≠ 0 ∧ SeqLt s.rtseq ackno then
    let m := toS16 (s.ticks - s.rttest).toNat
    let m := toS16 (m - s.sa / 8)
    let sa := toS16 (s.sa + m)
    let m := if m < 0 then toS16 (-m) else m
    let m := toS16 (m - s.sv / 4)
    let sv := toS16 (s.sv + m)
    { s with sa := sa, sv := sv, rto := toS16 (sa / 8 + sv), rttest := 0 }
  else s

/-- `tcp_receive`, the part under `flags & TCP_ACK`. -/
def receiveAck (s : Pcb) (g : InSeg) : Option Pcb :=
  let rightWndEdge := BitVec.ofNat 32 s.sndWnd + s.sndWl2
  let s := s.updateWindow g
  let acked :=
    if SeqLeq g.ackno s.lastack then some (s.duplicateAck g rightWndEdge)
    else if SeqBetween g.ackno (s.lastack + 1) s.sndNxt then s.newAck g.ackno
    else some { s with acked := 0 }
  acked.bind fun s ↦ (ackUnsent g.ackno s.unsent s).map fun s ↦ s.estimateRtt g.ackno

/-! ### The front edge -/

/-- Cut off what was received before. -/
def trimFront (rcvNxt : SeqNum) (inseg : OoSeg) (tcplen : ℕ) : Option OoSeg :=
  if SeqBetween rcvNxt (inseg.seqno + 1) (inseg.seqno + BitVec.ofNat 32 tcplen - 1) then
    let off := (rcvNxt - inseg.seqno).toInt
    if off < 0x7fff ∧ off ≤ inseg.p.length then
      some { inseg with
        seqno := rcvNxt
        len := (inseg.len + 2 ^ 16 - toU16 (rcvNxt - inseg.seqno).toNat) % 2 ^ 16
        p := inseg.p.drop off.toNat }
    else none
  else some inseg

/-! ### Data in sequence -/

/-- Cut a segment that is in sequence to the window. -/
def trimToWindow (rcvNxt : SeqNum) (rcvWnd : ℕ) (inseg : OoSeg) : Option OoSeg :=
  if rcvWnd < toU16 inseg.tcpLen then
    let len := if inseg.syn then toU16 (rcvWnd + 2 ^ 16 - 1) else rcvWnd
    let inseg := { inseg with fin := false, len := len, p := inseg.p.take len }
    if inseg.seqno + BitVec.ofNat 32 (toU16 inseg.tcpLen) = rcvNxt + BitVec.ofNat 32 rcvWnd then
      some inseg
    else none
  else some inseg

/-- Remove the queued segments that a segment in sequence covers; it takes over their `FIN`. -/
def dropCovered (inseg : OoSeg) : List OoSeg → OoSeg × List OoSeg
  | [] => (inseg, [])
  | next :: rest =>
    if SeqGeq (inseg.seqno + BitVec.ofNat 32 (toU16 inseg.tcpLen))
        (next.seqno + BitVec.ofNat 32 next.len) then
      dropCovered (if next.fin = true ∧ inseg.syn = false then { inseg with fin := true } else inseg)
        rest
    else (inseg, next :: rest)

/-- Cut a segment in sequence against the out-of-sequence queue. -/
def trimToOoseq (ooseq : List OoSeg) (inseg : OoSeg) : Option (OoSeg × List OoSeg) :=
  if inseg.fin then some (inseg, [])
  else
    match dropCovered inseg ooseq with
    | (inseg, []) => some (inseg, [])
    | (inseg, next :: rest) =>
      if SeqGt (inseg.seqno + BitVec.ofNat 32 (toU16 inseg.tcpLen)) next.seqno then
        let len := toU16 (next.seqno - inseg.seqno).toNat
        let len := if inseg.syn then toU16 (len + 2 ^ 16 - 1) else len
        let inseg := { inseg with len := len, p := inseg.p.take len }
        if inseg.seqno + BitVec.ofNat 32 (toU16 inseg.tcpLen) = next.seqno then
          some (inseg, next :: rest)
        else none
      else some (inseg, next :: rest)

/-- What is passed on to the application at the end of `tcp_input`: `recv_data`, and `TF_GOT_FIN`. -/
structure Received where
  data : List Byte
  gotFin : Bool
  deriving DecidableEq, Repr

/-- Accept the sequence numbers of a segment that is in sequence. -/
def acceptSeg (s : Pcb) (seqno : SeqNum) (tcplen : ℕ) : Option Pcb :=
  if tcplen ≤ s.rcvWnd then
    (tcpUpdateRcvAnnWnd { s with
      rcvNxt := seqno + BitVec.ofNat 32 tcplen
      rcvWnd := s.rcvWnd - tcplen }).map Prod.snd
  else none

/-- The loop that passes on the queued segments that have come into sequence. -/
def splice : List OoSeg → Pcb → Received → Option (Pcb × Received)
  | [], s, r => some (s, r)
  | cseg :: rest, s, r =>
    if cseg.seqno = s.rcvNxt then
      (acceptSeg s cseg.seqno cseg.tcpLen).bind fun s ↦
        let state := if cseg.fin = true ∧ s.state = .established then .closeWait else s.state
        splice rest { s with ooseq := rest, state := state }
          ⟨r.data ++ cseg.p, r.gotFin || cseg.fin⟩
    else some (s, r)

/-- `tcp_ack`. -/
def tcpAck (s : Pcb) : Pcb :=
  if s.ackDelay then { s with ackDelay := false, ackNow := true } else { s with ackDelay := true }

/-- A segment at `rcv_nxt`. -/
def receiveInSequence (s : Pcb) (inseg : OoSeg) : Option (Pcb × Received) :=
  (trimToWindow s.rcvNxt s.rcvWnd inseg).bind fun inseg ↦
    (trimToOoseq s.ooseq inseg).bind fun r ↦
      (acceptSeg { s with ooseq := r.2 } r.1.seqno (toU16 r.1.tcpLen)).bind fun s ↦
        (splice s.ooseq s ⟨r.1.p, r.1.fin⟩).map fun r ↦ (r.1.tcpAck, r.2)

/-! ### Data out of sequence -/

/-- The loop of `tcp_oos_insert_segment`: remove what the segment covers, and take over its `FIN`. -/
def oosCover (cseg : OoSeg) : List OoSeg → OoSeg × List OoSeg
  | [] => (cseg, [])
  | next :: rest =>
    if SeqGeq (cseg.seqno + BitVec.ofNat 32 cseg.len) (next.seqno + BitVec.ofNat 32 next.len) then
      oosCover (if next.fin then { cseg with fin := true } else cseg) rest
    else (cseg, next :: rest)

/-- `tcp_oos_insert_segment`: the segment in front of a queue. -/
def tcpOosInsertSegment (cseg : OoSeg) (next : List OoSeg) : List OoSeg :=
  if cseg.fin then [cseg]
  else
    match oosCover cseg next with
    | (cseg, []) => [cseg]
    | (cseg, next :: rest) =>
      if SeqGt (cseg.seqno + BitVec.ofNat 32 cseg.len) next.seqno then
        let len := toU16 (next.seqno - cseg.seqno).toNat
        { cseg with len := len, p := cseg.p.take len } :: next :: rest
      else cseg :: next :: rest

/-- Cut the end of a queued segment where another one starts. -/
def trimEnd (seg : OoSeg) (seqno : SeqNum) : OoSeg :=
  if SeqGt (seg.seqno + BitVec.ofNat 32 seg.len) seqno then
    let len := toU16 (seqno - seg.seqno).toNat
    { seg with len := len, p := seg.p.take len }
  else seg

/-- Behind the last segment of the queue. Whether the segment overruns the window is decided by a plain
comparison of the two ends. -/
def appendLast (s : Pcb) (inseg last : OoSeg) (alloc : Bool) : Option (List OoSeg) :=
  if last.fin = true ∨ alloc = false then some [last]
  else if (s.rcvNxt + BitVec.ofNat 32 s.rcvWnd).toNat <
      (BitVec.ofNat 32 inseg.tcpLen + inseg.seqno).toNat then
    let len := toU16 (s.rcvNxt + BitVec.ofNat 32 s.rcvWnd - inseg.seqno).toNat
    let cseg := { inseg with fin := false, len := len, p := inseg.p.take len }
    if cseg.seqno + BitVec.ofNat 32 (toU16 cseg.tcpLen) = s.rcvNxt + BitVec.ofNat 32 s.rcvWnd then
      some [trimEnd last inseg.seqno, cseg]
    else none
  else some [trimEnd last inseg.seqno, inseg]

/-- The loop over the queue, from its second segment on; `prev` is the one before. -/
def insertAfter (s : Pcb) (inseg : OoSeg) (alloc : Bool) :
    OoSeg → List OoSeg → Option (List OoSeg)
  | prev, [] => some [prev]
  | prev, next :: rest =>
    if inseg.seqno = next.seqno then
      if next.len < inseg.len ∧ alloc = true then
        some (prev :: tcpOosInsertSegment inseg (next :: rest))
      else some (prev :: next :: rest)
    else if SeqBetween inseg.seqno (prev.seqno + 1) (next.seqno - 1) then
      if alloc then some (trimEnd prev inseg.seqno :: tcpOosInsertSegment inseg (next :: rest))
      else some (prev :: next :: rest)
    else if rest = [] ∧ SeqGt inseg.seqno next.seqno then
      (s.appendLast inseg next alloc).map (prev :: ·)
    else (insertAfter s inseg alloc next rest).map (prev :: ·)

/-- The queue with a segment that is out of sequence. -/
def insertOoseq (s : Pcb) (inseg : OoSeg) (alloc : Bool) : Option (List OoSeg) :=
  match s.ooseq with
  | [] => some (if alloc then [inseg] else [])
  | next :: rest =>
    if inseg.seqno = next.seqno then
      if next.len < inseg.len ∧ alloc = true then
        some (tcpOosInsertSegment inseg (next :: rest))
      else some (next :: rest)
    else if SeqLt inseg.seqno next.seqno then
      if alloc then some (tcpOosInsertSegment inseg (next :: rest)) else some (next :: rest)
    else if rest = [] ∧ SeqGt inseg.seqno next.seqno then s.appendLast inseg next alloc
    else insertAfter s inseg alloc next rest

/-! ### `tcp_receive` -/

/-- The test for the window. -/
def inWindow (s : Pcb) (seqno : SeqNum) : Prop :=
  SeqBetween seqno s.rcvNxt (s.rcvNxt + BitVec.ofNat 32 s.rcvWnd - 1)

instance (s : Pcb) (seqno : SeqNum) : Decidable (s.inWindow seqno) :=
  inferInstanceAs (Decidable (SeqBetween _ _ _))

/-- `tcp_receive`, the part for the data. `alloc` is for the copy of a segment that is put on the queue,
`ack` for an acknowledgement that is sent at once. -/
def receiveData (s : Pcb) (g : InSeg) (alloc ack : Bool) : Option (Pcb × Received) :=
  if 0 < g.tcplen ∧ s.state.beforeCloseWait = true then
    (trimFront s.rcvNxt g.inseg g.tcplen).bind fun inseg ↦
      -- a duplicate of what was received before
      let s := if inseg.seqno = g.seqno ∧ SeqLt g.seqno s.rcvNxt then { s with ackNow := true } else s
      if s.inWindow inseg.seqno then
        if s.rcvNxt = inseg.seqno then s.receiveInSequence inseg
        else
          (insertOoseq s inseg alloc).map fun ooseq ↦
            ({ s.tcpSendEmptyAck ack with ooseq := ooseq }, ⟨[], false⟩)
      else some (s.tcpSendEmptyAck ack, ⟨[], false⟩)
  else
    some (if s.inWindow g.seqno then s else { s with ackNow := true }, ⟨[], false⟩)

/-- `tcp_receive`. -/
def tcpReceive (s : Pcb) (g : InSeg) (alloc ack : Bool) : Option (Pcb × Received) :=
  if s.state.synchronized = true then
    (if g.ack then s.receiveAck g else some s).bind fun s ↦ s.receiveData g alloc ack
  else none

end Pcb

end Lwip.Tcp
