import LwipPoc.Foundation.Execution
import Mathlib.Data.BitVec

/-!
# The negotiation of the control protocols

`netif/ppp/fsm.c`, which LCP and IPCP share: the states of the link, the packets that are exchanged until both ends have
acknowledged the options of the other, and the timer that sends a request again.

* The callbacks are parameters. They read and write the options of their protocol, which are a part of the state, and do
  not call the functions of this file.
* What the machine does to the outside is recorded in the order it does it.
* `TIMEOUT` takes the timer off the list of timeouts before it puts it on again, so that there is at most one.
-/

namespace Lwip.Netif.Ppp

/-- `HEADERLEN`: the code, the id and the length of a packet. -/
def headerlen : ℕ := 4

def confreq : BitVec 8 := 1
def confack : BitVec 8 := 2
def confnak : BitVec 8 := 3
def confrej : BitVec 8 := 4
def termreq : BitVec 8 := 5
def termack : BitVec 8 := 6
def coderej : BitVec 8 := 7

/-- The states of a link. -/
inductive LinkState
  | initial | starting | closed | stopped | closing | stopping | reqsent | ackrcvd | acksent | opened
  deriving DecidableEq, Repr

/-- `fsm_callbacks`, on options `σ`. A length is not passed where it is that of a list. -/
structure FsmCallbacks (σ : Type*) where
  /-- `peer_mru`, which is `PPP_MRU` or an option of 16 bits. -/
  peerMru : σ → BitVec 16
  resetci : Option (σ → σ)
  cilen : Option (σ → ℕ × σ)
  /-- The options for a request, in no more bytes than there is room for. -/
  addci : Option (σ → ℕ → List (BitVec 8) × σ)
  ackci : Option (LinkState → σ → List (BitVec 8) → Bool × σ)
  nakci : Option (LinkState → σ → List (BitVec 8) → ℤ × σ)
  rejci : Option (LinkState → σ → List (BitVec 8) → ℤ × σ)
  /-- The code of the answer and its options, which are written over those of the request. -/
  reqci : Option (σ → List (BitVec 8) → Bool → BitVec 8 × List (BitVec 8) × σ)
  up : Option (σ → σ)
  down : Option (σ → σ)
  starting : Option (σ → σ)
  finished : Option (σ → σ)
  retransmit : Option (σ → σ)
  extcode : Option (σ → BitVec 8 → BitVec 8 → List (BitVec 8) → Bool × σ)

/-- What the machine does to the outside: packets, and the calls of callbacks, of those also that are null pointers. -/
inductive FsmAct
  | sdata (code id : BitVec 8) (data : List (BitVec 8))
  | up
  | down
  | starting
  | finished
  deriving DecidableEq, Repr

/-- `struct fsm`, with the options of the protocol, the timer, and what was done so far. -/
structure Fsm (σ : Type*) where
  state : LinkState
  /-- `OPT_PASSIVE`. -/
  passive : Bool
  /-- `OPT_RESTART`. -/
  restart : Bool
  /-- `OPT_SILENT`. -/
  silent : Bool
  id : BitVec 8
  reqid : BitVec 8
  seenAck : Bool
  maxconfreqtransmits : ℤ
  retransmits : ℤ
  maxtermtransmits : ℤ
  nakloops : ℕ
  maxnakloops : ℕ
  termReason : List (BitVec 8)
  ci : σ
  timer : Bool
  acts : List FsmAct

namespace Fsm

variable {σ : Type*} (cb : FsmCallbacks σ)

/-- `fsm_init`, on a `struct fsm` that was cleared. -/
def fsmInit (ci : σ) : Fsm σ where
  state := .initial
  passive := false
  restart := false
  silent := false
  id := 0
  reqid := 0
  seenAck := false
  maxconfreqtransmits := 10
  retransmits := 0
  maxtermtransmits := 2
  nakloops := 0
  maxnakloops := 5
  termReason := []
  ci := ci
  timer := false
  acts := []

/-- The state is assigned. -/
def enter (s : LinkState) (f : Fsm σ) : Fsm σ := { f with state := s }

/-- `TIMEOUT(fsm_timeout, f, f->timeouttime)`. -/
def arm (f : Fsm σ) : Fsm σ := { f with timer := true }

/-- `UNTIMEOUT(fsm_timeout, f)`. -/
def disarm (f : Fsm σ) : Fsm σ := { f with timer := false }

/-- A callback is called if there is one. -/
def call (a : FsmAct) (callback : Option (σ → σ)) (f : Fsm σ) : Fsm σ :=
  { f with acts := f.acts ++ [a], ci := callback.elim f.ci (· f.ci) }

/-- `fsm_sdata`: the data are cut to the MRU of the peer. -/
def fsmSdata (code id : BitVec 8) (data : List (BitVec 8)) (f : Fsm σ) : Fsm σ :=
  { f with acts := f.acts ++ [.sdata code id (data.take ((cb.peerMru f.ci).toNat - headerlen))] }

/-- Options are being negotiated. -/
def Negotiating (s : LinkState) : Prop := s = .reqsent ∨ s = .ackrcvd ∨ s = .acksent

instance (s : LinkState) : Decidable (Negotiating s) := inferInstanceAs (Decidable (_ ∨ _ ∨ _))

/-- The options of a request, with the calls of `cilen` and `addci`. -/
def requestCi (f : Fsm σ) : List (BitVec 8) × σ :=
  match cb.cilen, cb.addci with
  | some cilen, some addci =>
    let (n, ci) := cilen f.ci
    addci ci (min n ((cb.peerMru ci).toNat - headerlen))
  | _, _ => ([], f.ci)

/-- `fsm_sconfreq`. -/
def fsmSconfreq (retransmit : Bool) (f : Fsm σ) : Fsm σ :=
  let f := if Negotiating f.state then f else { f with ci := cb.resetci.elim f.ci (· f.ci), nakloops := 0 }
  let f := if retransmit then f else
    { f with retransmits := f.maxconfreqtransmits, id := f.id + 1, reqid := f.id + 1 }
  let (data, ci) := f.requestCi cb
  let f := fsmSdata cb confreq f.reqid data { f with seenAck := false, ci := ci }
  arm { f with retransmits := f.retransmits - 1 }

/-- `fsm_lowerup`. -/
def fsmLowerup (f : Fsm σ) : Fsm σ :=
  match f.state with
  | .initial => f.enter .closed
  | .starting => if f.silent then f.enter .stopped else (f.fsmSconfreq cb false).enter .reqsent
  | _ => f

/-- `fsm_lowerdown`. -/
def fsmLowerdown (f : Fsm σ) : Fsm σ :=
  match f.state with
  | .closed => f.enter .initial
  | .stopped => (f.enter .starting).call .starting cb.starting
  | .closing => (f.enter .initial).disarm
  | .stopping | .reqsent | .ackrcvd | .acksent => (f.enter .starting).disarm
  | .opened => (f.call .down cb.down).enter .starting
  | .initial | .starting => f

/-- `OPT_RESTART`: an open link goes down and up. -/
def reopen (f : Fsm σ) : Fsm σ := if f.restart then (f.fsmLowerdown cb).fsmLowerup cb else f

/-- `fsm_open`. -/
def fsmOpen (f : Fsm σ) : Fsm σ :=
  match f.state with
  | .initial => (f.enter .starting).call .starting cb.starting
  | .closed => if f.silent then f.enter .stopped else (f.fsmSconfreq cb false).enter .reqsent
  | .closing => (f.enter .stopping).reopen cb
  | .stopped | .opened => f.reopen cb
  | _ => f

/-- A terminate request is sent, and the timer is started. -/
def terminate (f : Fsm σ) : Fsm σ :=
  let f := fsmSdata cb termreq (f.id + 1) f.termReason { f with id := f.id + 1, reqid := f.id + 1 }
  let f := f.arm
  { f with retransmits := f.retransmits - 1 }

/-- `fsm_close`. -/
def fsmClose (reason : List (BitVec 8)) (f : Fsm σ) : Fsm σ :=
  let f := { f with termReason := reason }
  match f.state with
  | .starting => f.enter .initial
  | .stopped => f.enter .closed
  | .stopping => f.enter .closing
  | .reqsent | .ackrcvd | .acksent | .opened =>
    let f := if f.state = .opened then f.call .down cb.down else f.disarm
    (terminate cb { f with retransmits := f.maxtermtransmits }).enter .closing
  | .initial | .closed | .closing => f

/-- `fsm_timeout`, for a timer that is off the list of timeouts. -/
def fsmTimeout (f : Fsm σ) : Fsm σ :=
  match f.state with
  | .closing | .stopping =>
    if f.retransmits ≤ 0 then
      (f.enter (if f.state = .closing then .closed else .stopped)).call .finished cb.finished
    else f.terminate cb
  | .reqsent | .ackrcvd | .acksent =>
    if f.retransmits ≤ 0 then
      let f := f.enter .stopped
      if f.passive then f else f.call .finished cb.finished
    else
      let f := { f with ci := cb.retransmit.elim f.ci (· f.ci) }
      let f := f.fsmSconfreq cb true
      if f.state = .ackrcvd then f.enter .reqsent else f
  | _ => f

/-- The link is up: the layer above is told. -/
def goUp (f : Fsm σ) : Fsm σ := (f.enter .opened).call .up cb.up

/-- The answer to a request is sent, and the state follows it. -/
def respond (code id : BitVec 8) (inp : List (BitVec 8)) (f : Fsm σ) : Fsm σ :=
  let f := fsmSdata cb code id inp f
  if code = confack then
    let f := if f.state = .ackrcvd then f.disarm.goUp cb else f.enter .acksent
    { f with nakloops := 0 }
  else
    let f := if f.state = .ackrcvd then f else f.enter .reqsent
    if code = confnak then { f with nakloops := f.nakloops + 1 } else f

/-- The options of the peer are checked, and the answer is sent. -/
def answer (id : BitVec 8) (inp : List (BitVec 8)) (f : Fsm σ) : Fsm σ :=
  match cb.reqci with
  | some reqci =>
    let (code, inp, ci) := reqci f.ci inp (f.maxnakloops ≤ f.nakloops)
    respond cb code id inp { f with ci := ci }
  | none => respond cb (if inp = [] then confack else confrej) id inp f

/-- `fsm_rconfreq`. -/
def fsmRconfreq (id : BitVec 8) (inp : List (BitVec 8)) (f : Fsm σ) : Fsm σ :=
  match f.state with
  | .closed => f.fsmSdata cb termack id []
  | .closing | .stopping => f
  | .opened => ((f.call .down cb.down).fsmSconfreq cb false).answer cb id inp
  | .stopped => ((f.fsmSconfreq cb false).enter .reqsent).answer cb id inp
  | _ => f.answer cb id inp

/-- The negotiation starts again: the layer above is told that the link is down. -/
def renegotiate (f : Fsm σ) : Fsm σ := ((f.call .down cb.down).fsmSconfreq cb false).enter .reqsent

/-- `fsm_rconfack`. -/
def fsmRconfack (id : BitVec 8) (inp : List (BitVec 8)) (f : Fsm σ) : Fsm σ :=
  if id ≠ f.reqid ∨ f.seenAck then f
  else
    let (good, ci) := cb.ackci.elim (decide (inp = []), f.ci) fun ackci ↦ ackci f.state f.ci inp
    let f := { f with ci := ci }
    if !good then f
    else
      let f := { f with seenAck := true }
      match f.state with
      | .closed | .stopped => f.fsmSdata cb termack id []
      | .reqsent => { f.enter .ackrcvd with retransmits := f.maxconfreqtransmits }
      | .ackrcvd => (f.disarm.fsmSconfreq cb false).enter .reqsent
      | .acksent => goUp cb { f.disarm with retransmits := f.maxconfreqtransmits }
      | .opened => f.renegotiate cb
      | _ => f

/-- `fsm_rconfnakrej`, for the callback of the code. -/
def fsmRconfnakrej (proc : Option (LinkState → σ → List (BitVec 8) → ℤ × σ)) (id : BitVec 8) (inp : List (BitVec 8))
    (f : Fsm σ) : Fsm σ :=
  if id ≠ f.reqid ∨ f.seenAck then f
  else
    let (ret, ci) := proc.elim (0, f.ci) fun proc ↦ proc f.state f.ci inp
    let f := { f with ci := ci }
    if ret = 0 then f
    else
      let f := { f with seenAck := true }
      match f.state with
      | .closed | .stopped => f.fsmSdata cb termack id []
      | .reqsent | .acksent => if ret < 0 then f.disarm.enter .stopped else f.disarm.fsmSconfreq cb false
      | .ackrcvd => (f.disarm.fsmSconfreq cb false).enter .reqsent
      | .opened => f.renegotiate cb
      | _ => f

/-- `fsm_rtermreq`. -/
def fsmRtermreq (id : BitVec 8) (f : Fsm σ) : Fsm σ :=
  let f :=
    match f.state with
    | .ackrcvd | .acksent => f.enter .reqsent
    | .opened => arm { (f.call .down cb.down).enter .stopping with retransmits := 0 }
    | _ => f
  f.fsmSdata cb termack id []

/-- `fsm_rtermack`. The state of an open link is kept, though a request is sent. -/
def fsmRtermack (f : Fsm σ) : Fsm σ :=
  match f.state with
  | .closing => (f.disarm.enter .closed).call .finished cb.finished
  | .stopping => (f.disarm.enter .stopped).call .finished cb.finished
  | .ackrcvd => f.enter .reqsent
  | .opened => (f.call .down cb.down).fsmSconfreq cb false
  | _ => f

/-- `fsm_rcoderej`. -/
def fsmRcoderej (inp : List (BitVec 8)) (f : Fsm σ) : Fsm σ :=
  if inp.length < headerlen then f
  else if f.state = .ackrcvd then f.enter .reqsent
  else f

/-- `fsm_protreject`. -/
def fsmProtreject (f : Fsm σ) : Fsm σ :=
  match f.state with
  | .closing => (f.disarm.enter .closed).call .finished cb.finished
  | .closed => (f.enter .closed).call .finished cb.finished
  | .stopping | .reqsent | .ackrcvd | .acksent => (f.disarm.enter .stopped).call .finished cb.finished
  | .stopped => (f.enter .stopped).call .finished cb.finished
  | .opened => (terminate cb { f.call .down cb.down with retransmits := f.maxtermtransmits }).enter .stopping
  | .initial | .starting => f

/-- The code, the id and the options of a packet, and the bytes its length counts. -/
def header : List (BitVec 8) → Option (BitVec 8 × BitVec 8 × List (BitVec 8) × List (BitVec 8))
  | code :: id :: hi :: lo :: inp =>
    let len := hi.toNat * 2 ^ 8 + lo.toNat
    if len < headerlen ∨ inp.length + headerlen < len then none
    else some (code, id, inp.take (len - headerlen), (code :: id :: hi :: lo :: inp).take len)
  | _ => none

/-- `fsm_input`, behind the checks of the header and of the state. -/
def dispatch (code id : BitVec 8) (inp packet : List (BitVec 8)) (f : Fsm σ) : Fsm σ :=
  if code = confreq then f.fsmRconfreq cb id inp
  else if code = confack then f.fsmRconfack cb id inp
  else if code = confnak then f.fsmRconfnakrej cb cb.nakci id inp
  else if code = confrej then f.fsmRconfnakrej cb cb.rejci id inp
  else if code = termreq then f.fsmRtermreq cb id
  else if code = termack then f.fsmRtermack cb
  else if code = coderej then f.fsmRcoderej inp
  else
    let (known, ci) := cb.extcode.elim (false, f.ci) fun extcode ↦ extcode f.ci code id inp
    let f := { f with ci := ci }
    if known then f else fsmSdata cb coderej (f.id + 1) packet { f with id := f.id + 1 }

/-- `fsm_input`. -/
def fsmInput (inpacket : List (BitVec 8)) (f : Fsm σ) : Fsm σ :=
  match header inpacket with
  | none => f
  | some (code, id, inp, packet) =>
    if f.state = .initial ∨ f.state = .starting then f else f.dispatch cb code id inp packet

end Fsm

/-! ### Runs -/

/-- What happens to a machine: the calls of the layers above and below, and the timer. -/
inductive FsmEvent
  | lowerup
  | lowerdown
  | opens
  | close (reason : List (BitVec 8))
  | timeout
  | input (inpacket : List (BitVec 8))
  | protreject
  deriving DecidableEq, Repr

/-- A step. The timer goes off only if it runs, and is off the list of timeouts then. -/
def fsmStep {σ : Type*} (cb : FsmCallbacks σ) : FsmEvent → Fsm σ → Option (Fsm σ)
  | .lowerup, f => some (f.fsmLowerup cb)
  | .lowerdown, f => some (f.fsmLowerdown cb)
  | .opens, f => some (f.fsmOpen cb)
  | .close reason, f => some (f.fsmClose cb reason)
  | .timeout, f => if f.timer then some (f.disarm.fsmTimeout cb) else none
  | .input inpacket, f => some (f.fsmInput cb inpacket)
  | .protreject, f => some (f.fsmProtreject cb)

/-- A protocol that has no options. -/
def bareCallbacks : FsmCallbacks Unit where
  peerMru _ := 1500
  resetci := none
  cilen := none
  addci := none
  ackci := none
  nakci := none
  rejci := none
  reqci := none
  up := none
  down := none
  starting := none
  finished := none
  retransmit := none
  extcode := none

end Lwip.Netif.Ppp
