import LwipPoc.Foundation.Execution
import LwipPoc.Tcp.Receive

/-!
# A connection

The state machine of `tcp_in.c` (`tcp_process`), what `tcp_input` does with its result, and the part of
`tcp_slowtmr` that is about one connection; and from them the **runs** of a connection.

The application's callbacks are where runs interleave. `tcp_input` calls it when data was acknowledged,
when data has arrived and when the peer has closed, and meanwhile `tcp_output` does nothing for this
connection. So an arriving segment is three labels: `input`, up to the first of these callbacks; `recv`,
which passes on the data; and `inputDone`, which reports the `FIN` and calls `tcp_output`. Calls of the
application may stand in between, as in any other place. Only the calls that it makes from the `accept`
or `connected` callback, in the middle of `tcp_process`, belong to the label.
-/

namespace Lwip.Tcp

/-! ### `tcp_process` -/

/-- What the environment decides while a segment is processed. -/
structure InEnv where
  /-- The allocation of a copy for `ooseq`. -/
  alloc : Bool
  /-- The allocation of an acknowledgement. -/
  ack : Bool
  /-- The MTU of the interface to the peer. -/
  mtu : ℕ
  /-- The calls from the `accept` or `connected` callback. -/
  calls : List Call
  /-- The result of that callback. -/
  result : Err

/-- `recv_flags` and `recv_data`. -/
structure InResult where
  reset : Bool
  closed : Bool
  received : Pcb.Received
  deriving DecidableEq, Repr

/-- Nothing to report. -/
def InResult.nothing : InResult := ⟨false, false, ⟨[], false⟩⟩

namespace Pcb

/-- The effect of `tcp_parseopt`. -/
def tcpParseopt (s : Pcb) (g : InSeg) : Pcb :=
  match g.mss with
  | none => s
  | some mss => { s with mss := if tcpMss < mss ∨ mss = 0 then tcpMss else mss }

/-- Into `TIME_WAIT`. -/
def enterTimeWait (s : Pcb) : Pcb := { s.tcpPcbPurge with state := .timeWait }

/-- The control block when the `SYN` has been acknowledged with one of the peer; `rest` is what stays on
`unacked`. -/
def synAcked (s : Pcb) (g : InSeg) (mtu : ℕ) (rest : List TcpSeg) : Pcb :=
  let mss := tcpEffSendMss mtu s.mss
  { s with
    sndBuf := toU16 (s.sndBuf + 1)
    rcvNxt := g.seqno + 1
    rcvAnnRightEdge := g.seqno + 1
    lastack := g.ackno
    sndWnd := g.wnd
    sndWndMax := g.wnd
    sndWl1 := g.seqno - 1
    state := .established
    mss := mss
    ssthresh := toU16 (mss * 10)
    cwnd := if s.cwnd = 1 then toU16 (mss * 2) else mss
    sndQueuelen := s.sndQueuelen - 1
    unacked := rest
    rtime := if rest = [] then -1 else 0
    nrtx := if rest = [] then s.nrtx else 0 }

/-- The `SYN` of the peer for a connection in `SYN_SENT`. -/
def connected (s : Pcb) (g : InSeg) (env : InEnv) : Option Pcb :=
  match s.unacked with
  | [] => none
  | rseg :: rest =>
    if g.ackno = rseg.seqno + 1 then
      if 0 < s.sndQueuelen then
        ((s.synAcked g env.mtu rest).appCalls true env.calls).map fun s ↦
          if env.result = .abrt then s else { s with ackNow := true }
      else none
    else some s

/-- The acknowledgement of the `SYN` for a connection in `SYN_RCVD`. -/
def accepted (s : Pcb) (g : InSeg) (env : InEnv) : Option (Pcb × InResult) :=
  (appCalls true env.calls { s with state := .established }).bind fun s ↦
    if env.result ≠ .ok then
      -- the connection was aborted by the callback, or is aborted now
      some (if env.result = .abrt then s else s.tcpPcbRemove true env.ack, .nothing)
    else
      let oldCwnd := s.cwnd
      (s.tcpReceive g env.alloc env.ack).map fun r ↦
        let s := { r.1 with
          acked := if r.1.acked ≠ 0 then r.1.acked - 1 else r.1.acked
          cwnd := if oldCwnd = 1 then toU16 (r.1.mss * 2) else r.1.mss }
        (if r.2.gotFin then { s with ackNow := true, state := .closeWait } else s,
          ⟨false, false, r.2⟩)

/-- `tcp_process` behind its checks: the switch over the states. -/
def processState (s : Pcb) (g : InSeg) (env : InEnv) : Option (Pcb × InResult) :=
  match s.state with
  | .synSent =>
    if g.ack = true ∧ g.syn = true then (s.connected g env).map fun s ↦ (s, .nothing)
    else some (s, .nothing)
  | .synRcvd =>
    if g.ack then
      if SeqBetween g.ackno (s.lastack + 1) s.sndNxt then s.accepted g env else some (s, .nothing)
    else if g.syn = true ∧ g.seqno = s.rcvNxt - 1 then some (s.tcpRexmit, .nothing)
    else some (s, .nothing)
  | .closeWait | .established =>
    (s.tcpReceive g env.alloc env.ack).map fun r ↦
      (if r.2.gotFin then { r.1 with ackNow := true, state := .closeWait } else r.1,
        ⟨false, false, r.2⟩)
  | .finWait1 =>
    (s.tcpReceive g env.alloc env.ack).map fun r ↦
      let s := r.1
      (if r.2.gotFin then
        if g.ack = true ∧ g.ackno = s.sndNxt then enterTimeWait { s with ackNow := true }
        else { s with ackNow := true, state := .closing }
      else if g.ack = true ∧ g.ackno = s.sndNxt then { s with state := .finWait2 }
      else s, ⟨false, false, r.2⟩)
  | .finWait2 =>
    (s.tcpReceive g env.alloc env.ack).map fun r ↦
      (if r.2.gotFin then enterTimeWait { r.1 with ackNow := true } else r.1, ⟨false, false, r.2⟩)
  | .closing =>
    (s.tcpReceive g env.alloc env.ack).map fun r ↦
      (if g.ack = true ∧ g.ackno = r.1.sndNxt then r.1.enterTimeWait else r.1, ⟨false, false, r.2⟩)
  | .lastAck =>
    (s.tcpReceive g env.alloc env.ack).map fun r ↦
      (r.1, ⟨false, g.ack && decide (g.ackno = r.1.sndNxt), r.2⟩)
  | _ => some (s, .nothing)

/-- `tcp_process`. -/
def tcpProcess (s : Pcb) (g : InSeg) (env : InEnv) : Option (Pcb × InResult) :=
  if g.rst then
    let acceptable := if s.state = .synSent then decide (g.ackno = s.sndNxt)
      else decide (SeqBetween g.seqno s.rcvNxt (s.rcvNxt + BitVec.ofNat 32 s.rcvWnd))
    some (if acceptable then ({ s with ackDelay := false }, { InResult.nothing with reset := true })
      else (s, .nothing))
  else if g.syn = true ∧ s.state ≠ .synSent ∧ s.state ≠ .synRcvd then
    some ({ s with ackNow := true }, .nothing)
  else (s.tcpParseopt g).processState g env

/-- `tcp_timewait_input`. -/
def tcpTimewaitInput (s : Pcb) (g : InSeg) (ack : Bool) : Pcb :=
  if g.rst then s
  else if g.syn = true ∧ SeqBetween g.seqno s.rcvNxt (s.rcvNxt + BitVec.ofNat 32 s.rcvWnd) then s
  else if 0 < g.tcplen then tcpOutput { s with ackNow := true } false ack
  else s

/-! ### The slow timer -/

/-- What the environment decides in a tick of the slow timer. -/
structure TickEnv where
  /-- The allocation of an acknowledgement or of a probe. -/
  alloc : Bool
  /-- The first byte of the memory of a probe. -/
  junk : Byte
  /-- The connection has been in its state, or idle, for too long. -/
  expired : Bool
  /-- A keepalive probe is due. -/
  keepalive : Bool
  /-- The segments out of sequence have waited for too long. -/
  dropOoseq : Bool

/-- The retransmission timers of `tcp_slowtmr`. -/
def slowtmrRexmit (s : Pcb) (env : TickEnv) : Pcb :=
  if 0 < s.persistBackoff then
    let s := { s with persistCnt := (s.persistCnt + 1) % 2 ^ 8 }
    if tcpPersistBackoff.getD (s.persistBackoff - 1) 0 ≤ s.persistCnt then
      tcpZeroWindowProbe { s with
        persistCnt := 0
        persistBackoff := if s.persistBackoff < tcpPersistBackoff.length then s.persistBackoff + 1
          else s.persistBackoff } env.alloc env.junk
    else s
  else
    let s := if 0 ≤ s.rtime then { s with rtime := toS16 (s.rtime + 1) } else s
    if s.unacked ≠ [] ∧ s.rto ≤ s.rtime then
      let effWnd := min s.cwnd s.sndWnd
      let ssthresh := if effWnd / 2 < s.mss * 2 then toU16 (s.mss * 2) else effWnd / 2
      tcpRexmitRto { s with
        rto := if s.state = .synSent then s.rto
          else toS16 ((s.sa / 8 + s.sv) * 2 ^ tcpBackoff.getD s.nrtx 0)
        rtime := 0
        ssthresh := ssthresh
        cwnd := s.mss } env.alloc
    else s

/-- The segment has been sent too often. -/
def givesUp (s : Pcb) : Bool := decide (s.state = .synSent ∧ s.nrtx = tcpSynmaxrtx ∨ s.nrtx = tcpMaxrtx)

/-- `tcp_slowtmr`, for one connection on the list of the active ones. -/
def tcpSlowtmr (s : Pcb) (env : TickEnv) : Pcb :=
  let s := { s with ticks := s.ticks + 1 }
  let giveUp := s.givesUp
  let s := if giveUp then s else s.slowtmrRexmit env
  let s := if env.keepalive then s.tcpKeepalive env.alloc else s
  let s := if env.dropOoseq then { s with ooseq := [] } else s
  if giveUp || env.expired then { s.tcpPcbPurge with state := .closed } else s

end Pcb

/-! ### Runs -/

/-- Where `tcp_input` stands with a connection. -/
inductive Phase
  /-- It is not working on it. -/
  | idle
  /-- It is; the data that has not been passed on yet, and whether there was a `FIN`. -/
  | input (received : Pcb.Received)
  deriving DecidableEq, Repr

/-- A connection with its application. -/
structure Conn where
  pcb : Pcb
  phase : Phase
  /-- The data that the application has taken. -/
  delivered : List Byte
  /-- The end of the stream has been reported to the application. -/
  finReported : Bool
  /-- The control block was freed because the `FIN` was acknowledged in `LAST_ACK`. -/
  released : Bool
  deriving DecidableEq, Repr

/-- A step of a run. -/
inductive Label
  | call (c : Call)
  /-- A segment arrives. -/
  | input (g : InSeg) (env : InEnv)
  /-- The data of the segment is passed on; the application takes it, or refuses it. -/
  | recv (accept ack : Bool)
  /-- `tcp_input` returns. -/
  | inputDone (ack : Bool)
  /-- `tcp_process_refused_data`, from a timer or from `tcp_input`. -/
  | refused (accept : Bool)
  /-- `tcp_fasttmr`: a delayed acknowledgement. -/
  | fasttmr (ack : Bool)
  | slowtmr (env : Pcb.TickEnv)

namespace Conn

/-- `tcp_input` is working on the connection. -/
def busy (c : Conn) : Bool := c.phase ≠ .idle

/-- A segment for the connection, up to the callbacks at the end of `tcp_input`. -/
def input (c : Conn) (g : InSeg) (env : InEnv) : Option Conn :=
  -- while data is refused, no other data is taken
  if c.pcb.refusedData.isSome = true ∧ 0 < g.tcplen then some c
  else
    (c.pcb.tcpProcess g env).map fun r ↦
      if r.2.reset then { c with pcb := r.1.tcpPcbRemove true env.ack }
      else if r.2.closed then { c with pcb := r.1.tcpPcbRemove true env.ack, released := true }
      else if r.1.state = .closed then { c with pcb := r.1 }
      else { c with pcb := r.1, phase := .input r.2.received }

/-- The end of the stream is reported; the `FIN` was no data that the application takes off the
window. -/
def reportFin (c : Conn) : Conn :=
  { c with
    pcb := if c.pcb.rcvWnd ≠ tcpWnd then { c.pcb with rcvWnd := c.pcb.rcvWnd + 1 } else c.pcb
    finReported := true }

/-- `TCP_EVENT_RECV`, at the end of `tcp_input`. -/
def recv (c : Conn) (accept ack : Bool) : Option Conn :=
  match c.phase with
  | .idle => none
  | .input r =>
    if r.data = [] then none
    else if c.pcb.refusedData.isSome then none
    else if c.pcb.rxClosed then
      some { c with pcb := c.pcb.tcpPcbRemove true ack, phase := .idle }
    else if accept then some { c with delivered := c.delivered ++ r.data, phase := .input ⟨[], r.gotFin⟩ }
    else
      some { c with
        pcb := { c.pcb with refusedData := some (r.data, false) }
        phase := .input ⟨[], r.gotFin⟩ }

/-- The end of `tcp_input`: `TCP_EVENT_CLOSED`, and `tcp_output`. The calls of the application from this
callback come before this label or after it. -/
def inputDone (c : Conn) (ack : Bool) : Option Conn :=
  match c.phase with
  | .idle => none
  | .input r =>
    if r.data ≠ [] then none
    else
      let c :=
        if r.gotFin then
          match c.pcb.refusedData with
          | some (data, _) => { c with pcb := { c.pcb with refusedData := some (data, true) } }
          | none => c.reportFin
        else c
      some { c with pcb := c.pcb.tcpOutput false ack, phase := .idle }

/-- `tcp_process_refused_data`. -/
def refused (c : Conn) (accept : Bool) : Option Conn :=
  match c.pcb.refusedData with
  | none => none
  | some (data, fin) =>
    if accept then
      let c := { c with pcb := { c.pcb with refusedData := none }, delivered := c.delivered ++ data }
      some (if fin then c.reportFin else c)
    else some c

/-- A step. -/
def step : Label → Conn → Option Conn
  | .call call, c =>
    (c.pcb.appCall c.busy call).map fun s ↦
      { c with pcb := s, phase := if s.state = .closed then .idle else c.phase }
  | .input g env, c =>
    if c.busy = true ∨ c.pcb.state = .closed then none
    else if c.pcb.state = .timeWait then some { c with pcb := c.pcb.tcpTimewaitInput g env.ack }
    else c.input g env
  | .recv accept ack, c => c.recv accept ack
  | .inputDone ack, c => c.inputDone ack
  | .refused accept, c =>
    if c.busy = true ∨ c.pcb.state = .closed then none else c.refused accept
  | .fasttmr ack, c =>
    if c.busy = true ∨ c.pcb.state = .closed ∨ c.pcb.state = .timeWait then none
    else if c.pcb.ackDelay then
      let s := Pcb.tcpOutput { c.pcb with ackNow := true } false ack
      some { c with pcb := { s with ackDelay := false, ackNow := false } }
    else some c
  | .slowtmr env, c =>
    if c.busy = true ∨ c.pcb.state = .closed ∨ c.pcb.state = .timeWait then none
    else some { c with pcb := c.pcb.tcpSlowtmr env }

end Conn

/-! ### How a connection starts -/

namespace Pcb

/-- `tcp_connect`, with the `SYN` on the queue; its `tcp_output` is the next step. -/
def connecting (iss : SeqNum) (ticks : BitVec 32) (mtu : ℕ) : Pcb :=
  let s := tcpAlloc iss ticks
  let mss := tcpEffSendMss mtu s.mss
  let s := { s with
    lastack := iss - 1
    sndLbb := iss - 1
    sndWnd := tcpWnd
    mss := mss
    ssthresh := toU16 (mss * 10) }
  { (s.tcpEnqueueFlags true false true).2 with state := .synSent }

/-- `tcp_listen_input`, with the `SYN` and its acknowledgement on the queue. -/
def accepting (iss : SeqNum) (ticks : BitVec 32) (g : InSeg) (mtu : ℕ) : Pcb :=
  let s := { tcpAlloc iss ticks with
    state := .synRcvd
    rcvNxt := g.seqno + 1
    rcvAnnRightEdge := g.seqno + 1
    sndWnd := g.wnd
    sndWndMax := g.wnd
    ssthresh := g.wnd
    sndWl1 := g.seqno - 1 }
  let s := s.tcpParseopt g
  let s := { s with mss := tcpEffSendMss mtu s.mss }
  (s.tcpEnqueueFlags true false true).2

end Pcb

/-- The connection that starts with a control block. -/
def Conn.start (s : Pcb) : Conn := ⟨s, .idle, [], false, false⟩

end Lwip.Tcp
