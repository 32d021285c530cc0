import LwipPoc.Tcp.Out

/-!
# The calls of the application

What the application may do with a connection at any time, also from a callback: write, close, shut
down, take data off the window, ask for output.

`Call` is such a call with what the environment decides in it, and `appCall` what it does. A control
block that is freed is in state `CLOSED`, and there are no more calls for it.
-/

namespace Lwip.Tcp

namespace Pcb

/-! ### Removal -/

/-- `tcp_pcb_purge`. -/
def tcpPcbPurge (s : Pcb) : Pcb :=
  if s.state = .closed ∨ s.state = .timeWait ∨ s.state = .listen then s
  else { s with
    refusedData := none
    ooseq := []
    rtime := -1
    unsent := []
    unacked := []
    unsentOversize := 0 }

/-- `tcp_pcb_remove`, for a connection. A delayed acknowledgement is sent first. -/
def tcpPcbRemove (s : Pcb) (input alloc : Bool) : Pcb :=
  let s := s.tcpPcbPurge
  let s := if s.state ≠ .timeWait ∧ s.ackDelay = true then
    tcpOutput { s with ackNow := true } input alloc else s
  { s with state := .closed }

/-! ### Closing -/

/-- `tcp_close_shutdown`. -/
def tcpCloseShutdown (s : Pcb) (rstOnUnackedData input alloc ack : Bool) : Option (Err × Pcb) :=
  if rstOnUnackedData = true ∧ (s.state = .established ∨ s.state = .closeWait) ∧
      (s.refusedData.isSome = true ∨ s.rcvWnd ≠ tcpWnd) then
    if s.rxClosed = true then
      let state := if s.state = .established then TcpState.timeWait else .closed
      some (.ok, { s.tcpPcbPurge with state := state })
    else none
  else
    -- the `FIN`, and the state that the connection then is in
    let sendFin (state : TcpState) : Err × Pcb :=
      let r := s.tcpSendFin alloc
      if r.1 = .ok then (.ok, tcpOutput { r.2 with state := state } input ack) else r
    match s.state with
    | .synSent => some (.ok, s.tcpPcbRemove input ack)
    | .synRcvd | .established => some (sendFin .finWait1)
    | .closeWait => some (sendFin .lastAck)
    | _ => some (.ok, s)

/-- `tcp_close`. -/
def tcpClose (s : Pcb) (input alloc ack : Bool) : Option (Err × Pcb) :=
  tcpCloseShutdown { s with rxClosed := true } true input alloc ack

/-- `tcp_shutdown`. -/
def tcpShutdown (s : Pcb) (shutRx shutTx input alloc ack : Bool) : Option (Err × Pcb) :=
  if shutRx = true ∧ shutTx = true then
    tcpCloseShutdown { s with rxClosed := true } true input alloc ack
  else
    let s := if shutRx = true then { s with rxClosed := true, refusedData := none } else s
    if shutTx = true then
      match s.state with
      | .synRcvd | .established | .closeWait => s.tcpCloseShutdown false input alloc ack
      | _ => some (.conn, s)
    else some (.ok, s)

/-! ### The receive window -/

/-- `tcp_update_rcv_ann_wnd`: how much more would be announced, and the new window to announce. -/
def tcpUpdateRcvAnnWnd (s : Pcb) : Option (SeqNum × Pcb) :=
  let newRightEdge := s.rcvNxt + BitVec.ofNat 32 s.rcvWnd
  if SeqGeq newRightEdge (s.rcvAnnRightEdge + BitVec.ofNat 32 (min (tcpWnd / 2) s.mss)) then
    some (newRightEdge - s.rcvAnnRightEdge, { s with rcvAnnWnd := s.rcvWnd })
  else if SeqGt s.rcvNxt s.rcvAnnRightEdge then some (0, { s with rcvAnnWnd := 0 })
  else
    -- the right edge stays where it is
    let newRcvAnnWnd := (s.rcvAnnRightEdge - s.rcvNxt).toNat
    if newRcvAnnWnd ≤ 0xffff then some (0, { s with rcvAnnWnd := newRcvAnnWnd }) else none

/-- `tcp_recved`. -/
def tcpRecved (s : Pcb) (len : ℕ) (input ack : Bool) : Option Pcb :=
  if len ≤ 0xffff - s.rcvWnd then
    (tcpUpdateRcvAnnWnd { s with rcvWnd := min (s.rcvWnd + len) tcpWnd }).map fun r ↦
      if (tcpWndUpdateThreshold : ℤ) ≤ r.1.toInt then tcpOutput { r.2 with ackNow := true } input ack
      else r.2
  else none

end Pcb

/-! ### All calls -/

/-- A call of the application, with the results of the allocations in it: `alloc` for what is put on
the queues, `ack` for an acknowledgement without data. -/
inductive Call
  | write (arg : List Byte) (copy more : Bool) (alloc : ℕ → Bool)
  | close (alloc ack : Bool)
  | shutdown (shutRx shutTx alloc ack : Bool)
  | recved (len : ℕ) (ack : Bool)
  | output (ack : Bool)
  | nodelay (on : Bool)
  | abort (ack : Bool)

/-- What a call does; `input` says that `tcp_input` is working on the connection. -/
def Pcb.appCall (input : Bool) (c : Call) (s : Pcb) : Option Pcb :=
  if s.state = .closed then none
  else
    match c with
    | .write arg copy more alloc => (s.tcpWrite arg copy more alloc).map Prod.snd
    | .close alloc ack => (s.tcpClose input alloc ack).map Prod.snd
    | .shutdown shutRx shutTx alloc ack => (s.tcpShutdown shutRx shutTx input alloc ack).map Prod.snd
    | .recved len ack => s.tcpRecved len input ack
    | .output ack => some (s.tcpOutput input ack)
    | .nodelay on => some { s with nodelay := on }
    | .abort ack => some (s.tcpPcbRemove input ack)

/-- The calls that a callback makes. -/
def Pcb.appCalls (input : Bool) : List Call → Pcb → Option Pcb :=
  fun cs s ↦ cs.foldlM (fun s c ↦ s.appCall input c) s

end Lwip.Tcp
