import LwipPoc.Tcp.Pcb

/-!
# Sending

`tcp_out.c`, for one connection. The application writes to the **unsent** queue; `tcp_output` moves
segments from there to the **unacked** queue as the windows allow; retransmission moves them back: a
timeout all of them, in front of `unsent` (`tcp_rexmit_rto`), three duplicate acknowledgements the first
one, sorted in (`tcp_rexmit`).

`tcp_write` fills the last segment on `unsent` before it makes new ones. It goes by the position **on
the queue**, not by the sequence number.

What the environment decides is passed as an argument: whether an allocation succeeds, and whether
`tcp_input` is working on this connection, so that `tcp_output` leaves the work to it. A failed
assertion is `none`; an assertion that compares what has just been assigned is left out.
-/

namespace Lwip.Tcp

namespace Pcb

/-! ### Handing segments to IP -/

/-- Hand a segment to `ip_output`. The window that is announced goes with every segment. -/
def emit (s : Pcb) (seqno : SeqNum) (syn fin : Bool) (data : List Byte) : Pcb :=
  { s with
    rcvAnnRightEdge := s.rcvNxt + BitVec.ofNat 32 s.rcvAnnWnd
    sent := s.sent ++ [⟨seqno, s.rcvNxt, s.rcvAnnWnd, syn, fin, data⟩] }

/-- `tcp_send_empty_ack`. -/
def tcpSendEmptyAck (s : Pcb) (alloc : Bool) : Pcb :=
  if alloc then { s.emit s.sndNxt false false [] with ackDelay := false, ackNow := false } else s

/-- `tcp_output_segment`. -/
def tcpOutputSegment (s : Pcb) (seg : TcpSeg) : Pcb :=
  let s := if s.rtime = -1 then { s with rtime := 0 } else s
  let s := if s.rttest = 0 then { s with rttest := s.ticks, rtseq := seg.seqno } else s
  s.emit seg.seqno seg.syn seg.fin seg.data

/-! ### `tcp_output` -/

/-- `tcp_do_output_nagle`. -/
def tcpDoOutputNagle (s : Pcb) : Bool :=
  s.unacked.isEmpty || s.nodelay || s.infr ||
    (match s.unsent with
      | [] => false
      | [seg] => decide (s.mss ≤ seg.len)
      | _ :: _ :: _ => true) ||
    decide (s.sndBuf = 0) || decide (tcpSndQueuelen ≤ s.sndQueuelen)

/-- Put a segment into a queue, in front of the first one that is not before it. -/
def insertSorted (seg : TcpSeg) (q : List TcpSeg) : List TcpSeg :=
  q.takeWhile (fun x ↦ SeqLt x.seqno seg.seqno) ++ seg ::
    q.dropWhile (fun x ↦ SeqLt x.seqno seg.seqno)

/-- Put a segment that was sent on the unacked queue: at its end, unless the last one there comes
after it. -/
def insertUnacked (seg : TcpSeg) (q : List TcpSeg) : List TcpSeg :=
  match q.getLast? with
  | none => [seg]
  | some useg => if SeqLt seg.seqno useg.seqno then insertSorted seg q else q ++ [seg]

/-- Send the first segment on `unsent`: one round of the loop in `tcp_output`. -/
def outputOne (s : Pcb) (seg : TcpSeg) (rest : List TcpSeg) : Pcb :=
  let s := { s with unsent := rest }
  let s := if s.state ≠ .synSent then { s with ackDelay := false, ackNow := false } else s
  let s := s.tcpOutputSegment seg
  let s := if SeqLt s.sndNxt seg.endSeq then { s with sndNxt := seg.endSeq } else s
  if 0 < seg.tcpLen then { s with unacked := insertUnacked seg s.unacked } else s

/-- The room that a segment needs in the window of the peer. -/
def wndNeeded (s : Pcb) (seg : TcpSeg) : ℕ :=
  (seg.seqno - s.lastack + BitVec.ofNat 32 seg.len).toNat

/-- The loop of `tcp_output`, on what is left of `unsent`. -/
def outputLoop (wnd : ℕ) : List TcpSeg → Pcb → Pcb
  | [], s => s
  | seg :: rest, s =>
    if s.wndNeeded seg ≤ wnd then
      if s.tcpDoOutputNagle = false ∧ s.nagleMemErr = false ∧ s.fin = false then s
      else outputLoop wnd rest (s.outputOne seg rest)
    else s

/-- `tcp_output`. -/
def tcpOutput (s : Pcb) (input alloc : Bool) : Pcb :=
  if input then s
  else
    let wnd := min s.sndWnd s.cwnd
    -- an acknowledgement is due, and no data will go out that carries it
    if s.ackNow && (match s.unsent with
        | [] => true
        | seg :: _ => decide (wnd < s.wndNeeded seg)) then
      s.tcpSendEmptyAck alloc
    else
      let s := outputLoop wnd s.unsent s
      let s := if s.unsent = [] then { s with unsentOversize := 0 } else s
      { s with nagleMemErr := false }

/-! ### Retransmission -/

/-- `tcp_rexmit_rto`: all of `unacked` goes in front of `unsent`. -/
def tcpRexmitRto (s : Pcb) (alloc : Bool) : Pcb :=
  if s.unacked = [] then s
  else
    let s := { s with
      unsent := s.unacked ++ s.unsent
      unacked := []
      nrtx := (s.nrtx + 1) % 2 ^ 8
      rttest := 0 }
    s.tcpOutput false alloc

/-- `tcp_rexmit`: the first segment on `unacked` is sorted into `unsent`. -/
def tcpRexmit (s : Pcb) : Pcb :=
  match s.unacked with
  | [] => s
  | seg :: rest =>
    let s := { s with
      unacked := rest
      unsent := insertSorted seg s.unsent
      unsentOversize :=
        if s.unsent.dropWhile (fun x : TcpSeg ↦ SeqLt x.seqno seg.seqno) = [] then 0
        else s.unsentOversize }
    { s with nrtx := (s.nrtx + 1) % 2 ^ 8, rttest := 0 }

/-- `tcp_rexmit_fast`. -/
def tcpRexmitFast (s : Pcb) : Pcb :=
  if s.unacked ≠ [] ∧ s.infr = false then
    let s := s.tcpRexmit
    let ssthresh := if s.sndWnd < s.cwnd then s.sndWnd / 2 else s.cwnd / 2
    let ssthresh := if ssthresh < 2 * s.mss then toU16 (2 * s.mss) else ssthresh
    { s with ssthresh := ssthresh, cwnd := toU16 (ssthresh + 3 * s.mss), infr := true }
  else s

/-- `tcp_zero_window_probe`: one byte of the first segment, or its `FIN`. Of a segment that has no data
nothing is copied, and the byte that goes out is what the memory held before. -/
def tcpZeroWindowProbe (s : Pcb) (alloc : Bool) (junk : Byte) : Pcb :=
  match (s.unacked ++ s.unsent).head? with
  | none => s
  | some seg =>
    let isFin := seg.fin && decide (seg.len = 0)
    if alloc then s.emit seg.seqno false isFin (if isFin then [] else [seg.data.headD junk]) else s

/-- `tcp_keepalive`. -/
def tcpKeepalive (s : Pcb) (alloc : Bool) : Pcb :=
  if alloc then s.emit (s.sndNxt - 1) false false [] else s

/-! ### Control segments -/

/-- `tcp_enqueue_flags`, with a `SYN` or a `FIN`. -/
def tcpEnqueueFlags (s : Pcb) (syn fin alloc : Bool) : Err × Pcb :=
  if tcpSndQueuelen ≤ s.sndQueuelen ∨ tcpSndQueuelenOverflow < s.sndQueuelen then
    (.mem, { s with nagleMemErr := true })
  else if s.sndBuf = 0 then (.mem, s)
  else if alloc = false then (.mem, { s with nagleMemErr := true })
  else
    (.ok, { s with
      unsent := s.unsent ++ [⟨s.sndLbb, [], syn, fin, 1⟩]
      unsentOversize := 0
      sndLbb := s.sndLbb + 1
      sndBuf := s.sndBuf - 1
      fin := s.fin || fin
      sndQueuelen := toU16 (s.sndQueuelen + 1) })

/-- `tcp_send_fin`: the `FIN` goes with the last segment on `unsent`, if that is a plain one. -/
def tcpSendFin (s : Pcb) (alloc : Bool) : Err × Pcb :=
  match s.unsent.getLast? with
  | some seg =>
    if seg.syn = false ∧ seg.fin = false then
      (.ok, { s with unsent := s.unsent.dropLast ++ [{ seg with fin := true }], fin := true })
    else s.tcpEnqueueFlags false true alloc
  | none => s.tcpEnqueueFlags false true alloc

/-! ### `tcp_write` -/

/-- `LWIP_MEM_ALIGN_SIZE`. -/
def memAlignSize (n : ℕ) : ℕ := (n + 3) / 4 * 4

/-- `tcp_pbuf_prealloc`: the bytes that are allocated behind the data. -/
def tcpPbufPrealloc (s : Pcb) (length maxLength : ℕ) (more firstSeg : Bool) : ℕ :=
  if length < maxLength ∧ (more = true ∨ s.nodelay = false ∧
      (firstSeg = false ∨ s.unsent ≠ [] ∨ s.unacked ≠ [])) then
    min maxLength (memAlignSize (length + tcpOversize)) - length
  else 0

/-- `tcp_write_checks`: an error, or go on. -/
def tcpWriteChecks (s : Pcb) (len : ℕ) : Option (Err × Pcb) :=
  if s.state ≠ .established ∧ s.state ≠ .closeWait ∧ s.state ≠ .synSent ∧ s.state ≠ .synRcvd then
    some (.conn, s)
  else if len = 0 then some (.ok, s)
  else if s.sndBuf < len then some (.mem, { s with nagleMemErr := true })
  else if tcpSndQueuelen ≤ s.sndQueuelen ∨ tcpSndQueuelenOverflow < s.sndQueuelen then
    some (.mem, { s with nagleMemErr := true })
  else if s.sndQueuelen ≠ 0 then if s.unacked ≠ [] ∨ s.unsent ≠ [] then some (.ok, s) else none
  else if s.unacked = [] ∧ s.unsent = [] then some (.ok, s) else none

/-- `mss_local`: no segment is larger than half the largest window of the peer. -/
def mssLocal (s : Pcb) : ℕ := min s.mss (s.sndWndMax / 2)

/-- What the loop of phase 3 carries along. -/
structure NewSegs where
  queue : List TcpSeg
  queuelen : ℕ
  oversize : ℕ

/-- Phase 3: new segments for what is left of the data, at `seqno`. Round `i` fails if `alloc i` does.
Every round adds to the length of the queue, which is limited, so that the limit on the rounds is
never reached. -/
def newSegs (s : Pcb) (copy more : Bool) (alloc : ℕ → Bool) :
    ℕ → SeqNum → List Byte → NewSegs → Option NewSegs
  | _, _, [], acc => some acc
  | 0, _, _ :: _, _ => none
  | i + 1, seqno, b :: bs, acc =>
    let seglen := min (b :: bs).length s.mssLocal
    -- the data in one pbuf, or in one behind the pbuf of the header
    let clen := if copy then 1 else 2
    let oversize :=
      if copy then s.tcpPbufPrealloc seglen s.mssLocal more acc.queue.isEmpty else acc.oversize
    let queuelen := toU16 (acc.queuelen + clen)
    if alloc i = false then none
    else if tcpSndQueuelen < queuelen ∨ tcpSndQueuelenOverflow < queuelen then none
    else
      newSegs s copy more alloc i (seqno + BitVec.ofNat 32 seglen) ((b :: bs).drop seglen)
        ⟨acc.queue ++ [⟨seqno, (b :: bs).take seglen, false, false, clen⟩], queuelen, oversize⟩

/-- What `tcp_write` adds to the last segment on `unsent`. -/
structure Extension where
  /-- The number of bytes copied into the pbuf that is there. -/
  oversizeUsed : ℕ
  /-- The number of bytes in a pbuf of their own. -/
  concat : ℕ
  deriving DecidableEq, Repr

/-- Phases 1 and 2: how much of `len` bytes is added to the last segment on `unsent`. -/
def extension (s : Pcb) (len : ℕ) : Extension :=
  match s.unsent.getLast? with
  | none => ⟨0, 0⟩
  | some last =>
    let oversizeUsed := min s.unsentOversize len
    -- computed in a `u16_t`, in two steps
    let space := (s.mssLocal + 2 ^ 18 - (last.len + last.optLen) - oversizeUsed) % 2 ^ 16
    ⟨oversizeUsed, if oversizeUsed < len ∧ 0 < space ∧ 0 < last.len then
      min space (len - oversizeUsed) else 0⟩

/-- The last segment on `unsent` with more data. -/
def extendLast (q : List TcpSeg) (data : List Byte) (clen : ℕ) : List TcpSeg :=
  match q.getLast? with
  | none => q
  | some last =>
    q.dropLast ++ [{ last with data := last.data ++ data, clen := last.clen + clen }]

/-- `tcp_write` behind its checks. -/
def writeChecked (s : Pcb) (arg : List Byte) (copy more : Bool) (alloc : ℕ → Bool) : Err × Pcb :=
  let e := s.extension arg.length
  let pos := e.oversizeUsed + e.concat
  let clen := if e.concat = 0 then 0 else 1
  let oversize := s.unsentOversize - e.oversizeUsed
  let space := (s.mssLocal + 2 ^ 18 -
    ((s.unsent.getLast?.map fun last ↦ last.len + last.optLen).getD 0) - e.oversizeUsed) % 2 ^ 16
  let oversize :=
    if 0 < e.concat ∧ copy = true then s.tcpPbufPrealloc e.concat space more true else oversize
  if 0 < e.concat ∧ alloc 0 = false then (.mem, { s with nagleMemErr := true })
  else
    match s.newSegs copy more (fun i ↦ alloc (i + 1)) (tcpSndQueuelen + 1)
        (s.sndLbb + BitVec.ofNat 32 pos) (arg.drop pos)
        ⟨[], toU16 (s.sndQueuelen + clen), oversize⟩ with
    | none => (.mem, { s with nagleMemErr := true })
    | some r =>
      (.ok, { s with
        unsent := extendLast s.unsent (arg.take pos) clen ++ r.queue
        unsentOversize := r.oversize
        sndLbb := s.sndLbb + BitVec.ofNat 32 arg.length
        sndBuf := s.sndBuf - arg.length
        sndQueuelen := r.queuelen
        written := s.written ++ arg })

/-- `tcp_write`. -/
def tcpWrite (s : Pcb) (arg : List Byte) (copy more : Bool) (alloc : ℕ → Bool) :
    Option (Err × Pcb) :=
  (s.tcpWriteChecks arg.length).bind fun r ↦
    match r.1 with
    | .ok =>
      -- without a segment on `unsent` there must be no room behind the last one
      if s.unsent = [] ∧ s.unsentOversize ≠ 0 then none
      else some (r.2.writeChecked arg copy more alloc)
    | _ => some r

end Pcb

end Lwip.Tcp
