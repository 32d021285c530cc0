import LwipPoc.Foundation.SeqSpace

/-!
# The protocol control block of a TCP connection

The data of `tcp.h` and `tcp_impl.h` that a **connection** works with: `struct tcp_pcb` with its three
queues of `struct tcp_seg`. The configuration is the repository's `lwipopts.h` over the defaults of
`opt.h`: no timestamps, no listen backlog, no limits on the out-of-sequence queue, `TCP_OVERSIZE` on.

* Numbers of type `u16_t` and `u8_t` are natural numbers; where an operation may leave the type, it
  says so by a remainder. Sequence numbers are bit vectors, since there the wrap is the point.
* A segment is kept as its bytes. What the pbufs of a segment are split into only shows in
  `pbuf_clen`, which is a field of the segments on the send queues.
* Two records are kept: of what goes to `ip_output`, and of what the application has written. No
  function looks at them. `tcp_ticks` is kept with the connection.

Callbacks, priorities, socket options and statistics are left out, and so are the reset segments: they
carry no data and do not change the control block.
-/

namespace Lwip.Tcp

/-- A byte of the stream. -/
abbrev Byte := BitVec 8

/-! ### Configuration -/

/-- `TCP_MSS`. -/
def tcpMss : ℕ := 536

/-- `TCP_WND`. -/
def tcpWnd : ℕ := 10 * tcpMss

/-- `TCP_SND_BUF`. -/
def tcpSndBuf : ℕ := 12 * tcpMss

/-- `TCP_SND_QUEUELEN`. -/
def tcpSndQueuelen : ℕ := 40

/-- `TCP_SNDQUEUELEN_OVERFLOW`. -/
def tcpSndQueuelenOverflow : ℕ := 0xffff - 3

/-- `TCP_OVERSIZE`. -/
def tcpOversize : ℕ := tcpMss

/-- `TCP_MAXRTX`. -/
def tcpMaxrtx : ℕ := 12

/-- `TCP_SYNMAXRTX`. -/
def tcpSynmaxrtx : ℕ := 6

/-- `TCP_WND_UPDATE_THRESHOLD`. -/
def tcpWndUpdateThreshold : ℕ := tcpWnd / 4

/-- `tcp_backoff`. -/
def tcpBackoff : List ℕ := [1, 2, 3, 4, 5, 6, 7, 7, 7, 7, 7, 7, 7]

/-- `tcp_persist_backoff`. -/
def tcpPersistBackoff : List ℕ := [3, 6, 12, 24, 48, 96, 120]

/-! ### Casts -/

/-- A value cast to `s16_t`. -/
def toS16 (x : ℤ) : ℤ := x.bmod (2 ^ 16)

/-- A value cast to `u16_t`. -/
def toU16 (n : ℕ) : ℕ := n % 2 ^ 16

/-! ### States and segments -/

/-- `enum tcp_state`. -/
inductive TcpState
  | closed
  | listen
  | synSent
  | synRcvd
  | established
  | finWait1
  | finWait2
  | closeWait
  | closing
  | lastAck
  | timeWait
  deriving DecidableEq, Repr

/-- `state < CLOSE_WAIT`, for the states in which `tcp_receive` is called: the peer's `FIN` has not
been received. -/
def TcpState.beforeCloseWait : TcpState → Bool
  | .closed | .listen | .synSent | .synRcvd | .established | .finWait1 | .finWait2 => true
  | .closeWait | .closing | .lastAck | .timeWait => false

/-- `state >= ESTABLISHED`. -/
def TcpState.synchronized : TcpState → Bool
  | .closed | .listen | .synSent | .synRcvd => false
  | .established | .finWait1 | .finWait2 | .closeWait | .closing | .lastAck | .timeWait => true

/-- `err_t`, as far as it occurs here. -/
inductive Err
  | ok
  | mem
  | buf
  | conn
  | abrt
  | rst
  deriving DecidableEq, Repr

/-- A `struct tcp_seg` on `unsent` or `unacked`. -/
structure TcpSeg where
  /-- `tcphdr->seqno`, in host order. -/
  seqno : SeqNum
  /-- The bytes behind header and options. -/
  data : List Byte
  syn : Bool
  fin : Bool
  /-- `pbuf_clen(seg->p)`. -/
  clen : ℕ
  deriving DecidableEq, Repr

/-- `seg->len`, a `u16_t`. -/
def TcpSeg.len (seg : TcpSeg) : ℕ := toU16 seg.data.length

/-- `TCP_TCPLEN`. -/
def TcpSeg.tcpLen (seg : TcpSeg) : ℕ := seg.len + if seg.syn || seg.fin then 1 else 0

/-- The sequence number behind a segment. -/
def TcpSeg.endSeq (seg : TcpSeg) : SeqNum := seg.seqno + BitVec.ofNat 32 seg.tcpLen

/-- `LWIP_TCP_OPT_LENGTH(seg->flags)`: the MSS option goes with every `SYN`. -/
def TcpSeg.optLen (seg : TcpSeg) : ℕ := if seg.syn then 4 else 0

/-- A `struct tcp_seg` on `ooseq`, or the segment that has just arrived. -/
structure OoSeg where
  seqno : SeqNum
  len : ℕ
  syn : Bool
  fin : Bool
  /-- The bytes of `seg->p`; their number is its `tot_len`. -/
  p : List Byte
  deriving DecidableEq, Repr

/-- `TCP_TCPLEN`. -/
def OoSeg.tcpLen (seg : OoSeg) : ℕ := seg.len + if seg.syn || seg.fin then 1 else 0

/-- A segment given to `ip_output`. -/
structure Emitted where
  seqno : SeqNum
  ackno : SeqNum
  wnd : ℕ
  syn : Bool
  fin : Bool
  data : List Byte
  deriving DecidableEq, Repr

/-! ### The control block -/

/-- `struct tcp_pcb`. -/
structure Pcb where
  state : TcpState
  /-- `TF_ACK_DELAY`. -/
  ackDelay : Bool
  /-- `TF_ACK_NOW`. -/
  ackNow : Bool
  /-- `TF_INFR`. -/
  infr : Bool
  /-- `TF_RXCLOSED`. -/
  rxClosed : Bool
  /-- `TF_FIN`. -/
  fin : Bool
  /-- `TF_NODELAY`. -/
  nodelay : Bool
  /-- `TF_NAGLEMEMERR`. -/
  nagleMemErr : Bool
  rcvNxt : SeqNum
  rcvWnd : ℕ
  rcvAnnWnd : ℕ
  rcvAnnRightEdge : SeqNum
  ooseq : List OoSeg
  /-- `refused_data`, with the flag `PBUF_FLAG_TCP_FIN`. -/
  refusedData : Option (List Byte × Bool)
  /-- `rtime`, `-1` when the timer is off. -/
  rtime : ℤ
  mss : ℕ
  rttest : BitVec 32
  rtseq : SeqNum
  sa : ℤ
  sv : ℤ
  rto : ℤ
  nrtx : ℕ
  dupacks : ℕ
  lastack : SeqNum
  cwnd : ℕ
  ssthresh : ℕ
  sndNxt : SeqNum
  sndWl1 : SeqNum
  sndWl2 : SeqNum
  sndLbb : SeqNum
  sndWnd : ℕ
  sndWndMax : ℕ
  acked : ℕ
  sndBuf : ℕ
  sndQueuelen : ℕ
  unsentOversize : ℕ
  unsent : List TcpSeg
  unacked : List TcpSeg
  persistCnt : ℕ
  persistBackoff : ℕ
  /-- What was given to `ip_output`, the last one at the end. -/
  sent : List Emitted
  /-- What the application has written, all of it: the bytes of the calls of `tcp_write` that returned
  `ERR_OK`. -/
  written : List Byte
  /-- `tcp_ticks`. -/
  ticks : BitVec 32
  deriving DecidableEq, Repr

/-- `tcp_eff_send_mss`, with the MTU of the interface to the peer; `0` if there is no such limit. -/
def tcpEffSendMss (mtu sendmss : ℕ) : ℕ :=
  if mtu ≠ 0 then min sendmss (toU16 (mtu + 2 ^ 16 - 40)) else sendmss

/-- `tcp_alloc`: a fresh control block. -/
def tcpAlloc (iss : SeqNum) (ticks : BitVec 32) : Pcb where
  state := .closed
  ackDelay := false
  ackNow := false
  infr := false
  rxClosed := false
  fin := false
  nodelay := false
  nagleMemErr := false
  rcvNxt := 0
  rcvWnd := tcpWnd
  rcvAnnWnd := tcpWnd
  rcvAnnRightEdge := 0
  ooseq := []
  refusedData := none
  rtime := -1
  mss := if tcpMss > 536 then 536 else tcpMss
  rttest := 0
  rtseq := 0
  sa := 0
  sv := 3000 / 500
  rto := 3000 / 500
  nrtx := 0
  dupacks := 0
  lastack := iss
  cwnd := 1
  ssthresh := 0
  sndNxt := iss
  sndWl1 := 0
  sndWl2 := iss
  sndLbb := iss
  sndWnd := 0
  sndWndMax := 0
  acked := 0
  sndBuf := tcpSndBuf
  sndQueuelen := 0
  unsentOversize := 0
  unsent := []
  unacked := []
  persistCnt := 0
  persistBackoff := 0
  sent := []
  written := []
  ticks := ticks

end Lwip.Tcp
