import LwipPoc.Netif.Ppp.FsmPeers
import LwipPoc.Netif.Ppp.Vj

/-!
# The options of IPCP

`netif/ppp/ipcp.c`: the callbacks that write the options of a request, compare the answers of the peer with them, and
answer the requests of the peer.

* An address is the number that its four bytes on the line make up, without the `htonl` of each place where it is read or
  written.
* `OLD_CI_ADDRS` is not defined. What `ipcp_up` and `ipcp_down` do to the interface is left out; where `ipcp_up` closes the
  link again, as its last act, the event `close` follows.
-/

namespace Lwip.Netif.Ppp

/-! ### Bytes -/

/-- `GETCHAR`. -/
def getChar (p : List (BitVec 8)) : BitVec 8 × List (BitVec 8) := (p.headD 0, p.tail)

/-- `GETSHORT`. -/
def getShort (p : List (BitVec 8)) : BitVec 16 × List (BitVec 8) := (p.getD 0 0 ++ p.getD 1 0, p.drop 2)

/-- `GETLONG`. -/
def getLong (p : List (BitVec 8)) : BitVec 32 × List (BitVec 8) :=
  (p.getD 0 0 ++ p.getD 1 0 ++ p.getD 2 0 ++ p.getD 3 0, p.drop 4)

/-- `PUTSHORT`. -/
def putShort (s : BitVec 16) : List (BitVec 8) := [s.extractLsb' 8 8, s.extractLsb' 0 8]

/-- `PUTLONG`. -/
def putLong (l : BitVec 32) : List (BitVec 8) :=
  [l.extractLsb' 24 8, l.extractLsb' 16 8, l.extractLsb' 8 8, l.extractLsb' 0 8]

/-! ### Options -/

def ciAddrs : BitVec 8 := 1
def ciCompresstype : BitVec 8 := 2
def ciAddr : BitVec 8 := 3
def ciMsWins1 : BitVec 8 := 128
def ciMsDns1 : BitVec 8 := 129
def ciMsWins2 : BitVec 8 := 130
def ciMsDns2 : BitVec 8 := 131

def cilenVoid : ℕ := 2
def cilenCompress : ℕ := 4
def cilenVj : ℕ := 6
def cilenAddr : ℕ := 6
def cilenAddrs : ℕ := 10

/-- `IPCP_VJ_COMP`. -/
def ipcpVjComp : BitVec 16 := 0x002d

/-- `IPCP_VJ_COMP_OLD`. -/
def ipcpVjCompOld : BitVec 16 := 0x0037

/-- `ipcp_options`, without the flags that only the interface needs. -/
structure IpcpOptions where
  negAddr : Bool := false
  oldAddrs : Bool := false
  reqAddr : Bool := false
  negVj : Bool := false
  oldVj : Bool := false
  acceptLocal : Bool := false
  acceptRemote : Bool := false
  reqDns1 : Bool := false
  reqDns2 : Bool := false
  vjProtocol : BitVec 16 := 0
  maxslotindex : BitVec 8 := 0
  cflag : BitVec 8 := 0
  ouraddr : BitVec 32 := 0
  hisaddr : BitVec 32 := 0
  dnsaddr1 : BitVec 32 := 0
  dnsaddr2 : BitVec 32 := 0
  winsaddr1 : BitVec 32 := 0
  winsaddr2 : BitVec 32 := 0
  deriving DecidableEq, Repr

/-- The options of a unit: those it wants, those it asks for, those it allows the peer, and those the peer asked for. -/
structure Ipcp where
  wantoptions : IpcpOptions
  gotoptions : IpcpOptions
  allowoptions : IpcpOptions
  hisoptions : IpcpOptions
  cisReceived : Bool
  usepeerdns : Bool
  peerMru : BitVec 16
  deriving DecidableEq, Repr

/-- `ipcp_init`, with `VJ_SUPPORT`, of a unit whose options were cleared. -/
def ipcpInit (usepeerdns : Bool) (peerMru : BitVec 16) : Ipcp where
  wantoptions :=
    { negAddr := true, negVj := true, vjProtocol := ipcpVjComp, maxslotindex := .ofNat 8 (maxSlots - 1), cflag := 0 }
  gotoptions := {}
  allowoptions := { negAddr := true, negVj := true, maxslotindex := .ofNat 8 (maxSlots - 1), cflag := 1 }
  hisoptions := {}
  cisReceived := false
  usepeerdns := usepeerdns
  peerMru := peerMru

/-- `ipcp_resetci`. -/
def ipcpResetci (r : Ipcp) : Ipcp :=
  let wo := r.wantoptions
  let wo := { wo with
    reqAddr := wo.negAddr && r.allowoptions.negAddr
    acceptLocal := wo.ouraddr == 0 || wo.acceptLocal
    acceptRemote := wo.hisaddr == 0 || wo.acceptRemote
    reqDns1 := r.usepeerdns
    reqDns2 := r.usepeerdns }
  { r with wantoptions := wo, gotoptions := wo, cisReceived := false }

/-- `LENCIADDR`, `LENCIVJ` and `LENCIDNS`. -/
def lenci (neg old : Bool) (lenOld len : ℕ) : ℕ := if neg then if old then lenOld else len else 0

/-- The older forms of options that `ipcp_cilen` falls back on. -/
def ipcpOlder (r : Ipcp) : IpcpOptions :=
  let go := r.gotoptions
  let go := if r.wantoptions.negAddr && !go.negAddr && !go.oldAddrs then { go with negAddr := true, oldAddrs := true } else go
  if r.wantoptions.negVj && !go.negVj && !go.oldVj then
    if !r.cisReceived then { go with negVj := true }
    else if r.hisoptions.negVj && r.hisoptions.oldVj then
      { go with negVj := true, oldVj := true, vjProtocol := r.hisoptions.vjProtocol }
    else go
  else go

/-- `ipcp_cilen`. -/
def ipcpCilen (r : Ipcp) : ℕ × Ipcp :=
  let go := ipcpOlder r
  (lenci go.negAddr go.oldAddrs cilenAddrs cilenAddr + lenci go.negVj go.oldVj cilenCompress cilenVj +
    lenci go.reqDns1 false 0 cilenAddr + lenci go.reqDns2 false 0 cilenAddr, { r with gotoptions := go })

/-! ### A request -/

/-- An address option, of the new or of the old style. -/
def ciOfAddr (opt : BitVec 8) (old : Bool) (val1 val2 : BitVec 32) : List (BitVec 8) :=
  [opt, .ofNat 8 (if old then cilenAddrs else cilenAddr)] ++ putLong val1 ++ if old then putLong val2 else []

/-- A compression option, of the new or of the old style. -/
def ciOfVj (val : BitVec 16) (old : Bool) (maxslotindex cflag : BitVec 8) : List (BitVec 8) :=
  [ciCompresstype, .ofNat 8 (if old then cilenCompress else cilenVj)] ++ putShort val ++
    if old then [] else [maxslotindex, cflag]

/-- `go->old_addrs ? CI_ADDRS : CI_ADDR`. -/
def IpcpOptions.addrOpt (go : IpcpOptions) : BitVec 8 := if go.oldAddrs then ciAddrs else ciAddr

/-- `ADDCIADDR`, `ADDCIVJ` and `ADDCIDNS`: an option that there is no room for is given up. -/
def addci (neg : Bool) (ci : List (BitVec 8)) (len : ℕ) : List (BitVec 8) × Bool × ℕ :=
  if neg && decide (ci.length ≤ len) then (ci, true, len - ci.length) else ([], false, len)

/-- `ipcp_addci`. -/
def ipcpAddci (r : Ipcp) (len : ℕ) : List (BitVec 8) × Ipcp :=
  let go := r.gotoptions
  let (addr, negAddr, len) := addci go.negAddr (ciOfAddr go.addrOpt go.oldAddrs go.ouraddr go.hisaddr) len
  let (vj, negVj, len) := addci go.negVj (ciOfVj go.vjProtocol go.oldVj go.maxslotindex go.cflag) len
  let (dns1, reqDns1, len) := addci go.reqDns1 (ciOfAddr ciMsDns1 false go.dnsaddr1 0) len
  let (dns2, reqDns2, _) := addci go.reqDns2 (ciOfAddr ciMsDns2 false go.dnsaddr2 0) len
  (addr ++ vj ++ dns1 ++ dns2,
    { r with gotoptions := { go with negAddr := negAddr, negVj := negVj, reqDns1 := reqDns1, reqDns2 := reqDns2 } })

/-! ### Answers of the peer -/

/-- `ACKCIADDR`, and `ACKCIDNS` for an address that is never of the old style: what is left of the packet, if it is good. -/
def ackciaddr (opt : BitVec 8) (neg old : Bool) (val1 val2 : BitVec 32) (p : List (BitVec 8)) : Option (List (BitVec 8)) :=
  if neg then
    let addrlen := if old then cilenAddrs else cilenAddr
    if p.length < addrlen then none
    else
      let (citype, p) := getChar p
      let (cilen, p) := getChar p
      if cilen.toNat ≠ addrlen ∨ citype ≠ opt then none
      else
        let (cilong, p) := getLong p
        if val1 ≠ cilong then none
        else if old then
          let (cilong, p) := getLong p
          if val2 ≠ cilong then none else some p
        else some p
  else some p

/-- `ACKCIVJ`. -/
def ackcivj (neg : Bool) (val : BitVec 16) (old : Bool) (maxslotindex cflag : BitVec 8) (p : List (BitVec 8)) :
    Option (List (BitVec 8)) :=
  if neg then
    let vjlen := if old then cilenCompress else cilenVj
    if p.length < vjlen then none
    else
      let (citype, p) := getChar p
      let (cilen, p) := getChar p
      if cilen.toNat ≠ vjlen ∨ citype ≠ ciCompresstype then none
      else
        let (cishort, p) := getShort p
        if cishort ≠ val then none
        else if old then some p
        else
          let (cimaxslotindex, p) := getChar p
          if cimaxslotindex ≠ maxslotindex then none
          else
            let (cicflag, p) := getChar p
            if cicflag ≠ cflag then none else some p
  else some p

/-- `ipcp_ackci`. -/
def ipcpAckci (r : Ipcp) (p : List (BitVec 8)) : Bool × Ipcp :=
  let go := r.gotoptions
  let rest := do
    let p ← ackciaddr go.addrOpt go.negAddr go.oldAddrs go.ouraddr go.hisaddr p
    let p ← ackcivj go.negVj go.vjProtocol go.oldVj go.maxslotindex go.cflag p
    let p ← ackciaddr ciMsDns1 go.reqDns1 false go.dnsaddr1 0 p
    ackciaddr ciMsDns2 go.reqDns2 false go.dnsaddr2 0 p
  (rest == some [], r)

/-- `REJCIADDR`, and `REJCIDNS` for an address that is never of the old style: whether the option is kept, and what is left
of the packet. -/
def rejciaddr (opt : BitVec 8) (neg old : Bool) (val1 val2 : BitVec 32) (p : List (BitVec 8)) :
    Option (Bool × List (BitVec 8)) :=
  let cilen := if old then cilenAddrs else cilenAddr
  if neg && decide (cilen ≤ p.length) && decide ((p.getD 1 0).toNat = cilen) && p.getD 0 0 == opt then
    let (cilong, p) := getLong (p.drop 2)
    if cilong ≠ val1 then none
    else if old then
      let (cilong, p) := getLong p
      if cilong ≠ val2 then none else some (false, p)
    else some (false, p)
  else some (neg, p)

/-- `REJCIVJ`. -/
def rejcivj (neg : Bool) (val : BitVec 16) (old : Bool) (maxslot cflag : BitVec 8) (p : List (BitVec 8)) :
    Option (Bool × List (BitVec 8)) :=
  let cilen := if old then cilenCompress else cilenVj
  if neg && decide ((p.getD 1 0).toNat = cilen) && decide (cilen ≤ p.length) && p.getD 0 0 == ciCompresstype then
    let (cishort, p) := getShort (p.drop 2)
    if cishort ≠ val then none
    else if old then some (false, p)
    else
      let (cimaxslotindex, p) := getChar p
      if cimaxslotindex ≠ maxslot then none
      else
        let (ciflag, p) := getChar p
        if ciflag ≠ cflag then none else some (false, p)
  else some (neg, p)

/-- `ipcp_rejci`. -/
def ipcpRejci (s : LinkState) (r : Ipcp) (p : List (BitVec 8)) : ℤ × Ipcp :=
  let go := r.gotoptions
  let good := do
    let (negAddr, p) ← rejciaddr go.addrOpt go.negAddr go.oldAddrs go.ouraddr go.hisaddr p
    let (negVj, p) ← rejcivj go.negVj go.vjProtocol go.oldVj go.maxslotindex go.cflag p
    let (reqDns1, p) ← rejciaddr ciMsDns1 go.reqDns1 false go.dnsaddr1 0 p
    let (reqDns2, p) ← rejciaddr ciMsDns2 go.reqDns2 false go.dnsaddr2 0 p
    if p = [] then some { go with negAddr := negAddr, negVj := negVj, reqDns1 := reqDns1, reqDns2 := reqDns2 } else none
  match good with
  | some try' => (1, if s = .opened then r else { r with gotoptions := try' })
  | none => (0, r)

/-- What a Configure-Nak has asked for so far: the fields of `no` that are read, and `try`. -/
structure IpcpNak where
  noNegAddr : Bool := false
  noOldAddrs : Bool := false
  noNegVj : Bool := false
  next : IpcpOptions
  deriving DecidableEq, Repr

/-- `NAKCIADDR`. -/
def nakciaddr (go : IpcpOptions) (n : IpcpNak) (p : List (BitVec 8)) : IpcpNak × List (BitVec 8) :=
  let cilen := if go.oldAddrs then cilenAddrs else cilenAddr
  if go.negAddr && decide (cilen ≤ p.length) && decide ((p.getD 1 0).toNat = cilen) && p.getD 0 0 == go.addrOpt then
    let (ciaddr1, p) := getLong (p.drop 2)
    let (ciaddr2, p) := if go.oldAddrs then getLong p else (0, p)
    let next := if go.acceptLocal && ciaddr1 != 0 then { n.next with ouraddr := ciaddr1 } else n.next
    let next := if go.acceptRemote && ciaddr2 != 0 then { next with hisaddr := ciaddr2 } else next
    ({ n with noOldAddrs := n.noOldAddrs || go.oldAddrs, noNegAddr := true, next := next }, p)
  else (n, p)

/-- `NAKCIVJ`. -/
def nakcivj (go : IpcpOptions) (n : IpcpNak) (p : List (BitVec 8)) : IpcpNak × List (BitVec 8) :=
  let cilen := (p.getD 1 0).toNat
  if go.negVj && (decide (cilen = cilenCompress) || decide (cilen = cilenVj)) && decide (cilen ≤ p.length) &&
      p.getD 0 0 == ciCompresstype then
    let (cishort, p) := getShort (p.drop 2)
    let n := { n with noNegVj := true }
    if cilen = cilenVj then
      let (cimaxslotindex, p) := getChar p
      let (cicflag, p) := getChar p
      if cishort = ipcpVjComp then
        let next := { n.next with oldVj := false }
        let next := if cimaxslotindex < go.maxslotindex then { next with maxslotindex := cimaxslotindex } else next
        ({ n with next := if cicflag = 0 then { next with cflag := 0 } else next }, p)
      else ({ n with next := { n.next with negVj := false } }, p)
    else if cishort = ipcpVjComp ∨ cishort = ipcpVjCompOld then
      ({ n with next := { n.next with oldVj := true, vjProtocol := cishort } }, p)
    else ({ n with next := { n.next with negVj := false } }, p)
  else (n, p)

/-- `NAKCIDNS`, which sets an address. -/
def nakcidns (opt : BitVec 8) (neg : Bool) (set : BitVec 32 → IpcpOptions → IpcpOptions) (n : IpcpNak)
    (p : List (BitVec 8)) : IpcpNak × List (BitVec 8) :=
  if neg && decide ((p.getD 1 0).toNat = cilenAddr) && decide (cilenAddr ≤ p.length) && p.getD 0 0 == opt then
    let (cidnsaddr, p) := getLong (p.drop 2)
    ({ n with next := set cidnsaddr n.next }, p)
  else (n, p)

/-- An option that was not in the request: `none` if the packet is bad. -/
def nakciOther (go : IpcpOptions) (n : IpcpNak) (citype : BitVec 8) (cilen : ℕ) (p : List (BitVec 8)) : Option IpcpNak :=
  if citype = ciCompresstype then
    if go.negVj || n.noNegVj || (decide (cilen ≠ cilenVj) && decide (cilen ≠ cilenCompress)) then none
    else some { n with noNegVj := true }
  else if citype = ciAddrs then
    if (go.negAddr && go.oldAddrs) || n.noOldAddrs || decide (cilen ≠ cilenAddrs) then none
    else
      let next := { n.next with negAddr := true, oldAddrs := true }
      let (ciaddr1, p) := getLong p
      let next := if ciaddr1 != 0 && go.acceptLocal then { next with ouraddr := ciaddr1 } else next
      let (ciaddr2, _) := getLong p
      let next := if ciaddr2 != 0 && go.acceptRemote then { next with hisaddr := ciaddr2 } else next
      some { n with noOldAddrs := true, next := next }
  else if citype = ciAddr then
    if go.negAddr || n.noNegAddr || decide (cilen ≠ cilenAddr) then none
    else
      let next := { n.next with oldAddrs := false }
      let (ciaddr1, _) := getLong p
      let next := if ciaddr1 != 0 && go.acceptLocal then { next with ouraddr := ciaddr1 } else next
      let next := if next.ouraddr != 0 then { next with negAddr := true } else next
      some { n with noNegAddr := true, next := next }
  else some n

/-- The loop over the remaining options, for a number of rounds: `none` if it still runs, and `some none` if the packet is
bad. An option of length 0 is followed by itself. -/
def nakciLoop (go : IpcpOptions) : ℕ → IpcpNak → List (BitVec 8) → Option (Option IpcpNak)
  | fuel, n, p =>
    if p.length ≤ cilenVoid then some (if p = [] then some n else none)
    else
      match fuel with
      | 0 => none
      | fuel + 1 =>
        let cilen := (p.getD 1 0).toNat
        if p.length < cilen then some none
        else
          match nakciOther go n (p.getD 0 0) cilen (p.drop 2) with
          | none => some none
          | some n => nakciLoop go fuel n (p.drop cilen)

/-- The options of the request, of which any may be there. -/
def nakciOptions (go : IpcpOptions) (p : List (BitVec 8)) : IpcpNak × List (BitVec 8) :=
  let (n, p) := nakciaddr go { next := go } p
  let (n, p) := nakcivj go n p
  let (n, p) := nakcidns ciMsDns1 go.reqDns1 (fun a next ↦ { next with dnsaddr1 := a }) n p
  nakcidns ciMsDns2 go.reqDns2 (fun a next ↦ { next with dnsaddr2 := a }) n p

/-- `ipcp_nakci`, for a number of rounds of its loop. -/
def ipcpNakci (fuel : ℕ) (s : LinkState) (r : Ipcp) (p : List (BitVec 8)) : Option (ℤ × Ipcp) :=
  let go := r.gotoptions
  let (n, p) := nakciOptions go p
  (nakciLoop go fuel n p).map fun
    | some n => (1, if s = .opened then r else { r with gotoptions := n.next })
    | none => (0, r)

/-! ### Requests of the peer -/

/-- What is thought of an option that the peer asks for, its bytes behind the length, which may be written over, and what is
recorded. -/
abbrev Thought := BitVec 8 × List (BitVec 8) × Ipcp

/-- `CI_ADDR`. -/
def reqciAddr (rejectIfDisagree : Bool) (r : Ipcp) (cilen : ℕ) (p : List (BitVec 8)) : Thought :=
  let wo := r.wantoptions
  if !r.allowoptions.negAddr || decide (cilen ≠ cilenAddr) then (confrej, p, r)
  else
    let ciaddr1 := (getLong p).1
    let accepted := { r with hisoptions := { r.hisoptions with negAddr := true, hisaddr := ciaddr1 } }
    if ciaddr1 ≠ wo.hisaddr ∧ (ciaddr1 = 0 ∨ wo.acceptRemote = false) then
      (confnak, if rejectIfDisagree then p else putLong wo.hisaddr ++ p.drop 4, accepted)
    else if ciaddr1 = 0 ∧ wo.hisaddr = 0 then (confrej, p, { r with wantoptions := { wo with reqAddr := false } })
    else (confack, p, accepted)

/-- `CI_MS_DNS1`, `CI_MS_DNS2`, `CI_MS_WINS1` and `CI_MS_WINS2`, for the address that the peer is allowed. -/
def reqciServer (addr : BitVec 32) (r : Ipcp) (cilen : ℕ) (p : List (BitVec 8)) : Thought :=
  if addr = 0 ∨ cilen ≠ cilenAddr then (confrej, p, r)
  else if (getLong p).1 ≠ addr then (confnak, putLong addr ++ p.drop 4, r)
  else (confack, p, r)

/-- `CI_COMPRESSTYPE`. -/
def reqciVj (rejectIfDisagree : Bool) (r : Ipcp) (cilen : ℕ) (p : List (BitVec 8)) : Thought :=
  let ao := r.allowoptions
  if !ao.negVj || (decide (cilen ≠ cilenVj) && decide (cilen ≠ cilenCompress)) then (confrej, p, r)
  else
    let cishort := (getShort p).1
    if ¬(cishort = ipcpVjComp ∨ cishort = ipcpVjCompOld ∧ cilen = cilenCompress) then (confrej, p, r)
    else
      let ho := { r.hisoptions with negVj := true, vjProtocol := cishort }
      if cilen = cilenVj then
        let maxslotindex := p.getD 2 0
        let cflag := p.getD 3 0
        let slots := ao.maxslotindex < maxslotindex
        let flag := cflag ≠ 0 ∧ ao.cflag = 0
        let p := if slots ∧ rejectIfDisagree = false then p.set 2 ao.maxslotindex else p
        let p := if flag ∧ rejectIfDisagree = false then p.set 3 r.wantoptions.cflag else p
        (if slots ∨ flag then confnak else confack, p,
          { r with hisoptions := { ho with maxslotindex := maxslotindex, cflag := cflag } })
      else
        (confack, p,
          { r with hisoptions := { ho with oldVj := true, maxslotindex := .ofNat 8 (maxSlots - 1), cflag := 1 } })

/-- `switch (citype)`. -/
def reqciOption (rejectIfDisagree : Bool) (r : Ipcp) (citype : BitVec 8) (cilen : ℕ) (p : List (BitVec 8)) : Thought :=
  if citype = ciAddr then reqciAddr rejectIfDisagree r cilen p
  else if citype = ciMsDns1 then reqciServer r.allowoptions.dnsaddr1 r cilen p
  else if citype = ciMsDns2 then reqciServer r.allowoptions.dnsaddr2 r cilen p
  else if citype = ciMsWins1 then reqciServer r.allowoptions.winsaddr1 r cilen p
  else if citype = ciMsWins2 then reqciServer r.allowoptions.winsaddr2 r cilen p
  else if citype = ciCompresstype then reqciVj rejectIfDisagree r cilen p
  else (confrej, p, r)

/-- `endswitch`: the answer so far and its options, when an option has been thought about. -/
def reqciEnd (rejectIfDisagree : Bool) (orc : BitVec 8) (ci : List (BitVec 8)) (rc : BitVec 8) (out : List (BitVec 8)) :
    BitVec 8 × List (BitVec 8) :=
  if orc = confack ∧ rc ≠ confack then (rc, out)
  else if orc = confnak ∧ rejectIfDisagree = false ∧ rc = confrej then (rc, out)
  else
    let (rc, out) := if orc = confnak ∧ rejectIfDisagree = false ∧ rc = confack then (confnak, []) else (rc, out)
    let orc := if orc = confnak ∧ rejectIfDisagree then confrej else orc
    let (rc, out) := if orc = confrej ∧ rc ≠ confrej then (confrej, []) else (rc, out)
    (rc, out ++ ci)

/-- The loop over the options of the peer, which takes no more rounds than there are bytes. -/
def reqciLoop (rejectIfDisagree : Bool) : ℕ → List (BitVec 8) → BitVec 8 → List (BitVec 8) → Ipcp →
    BitVec 8 × List (BitVec 8) × Ipcp
  | 0, _, rc, out, r => (rc, out, r)
  | fuel + 1, next, rc, out, r =>
    if next = [] then (rc, out, r)
    else
      let cilen := (next.getD 1 0).toNat
      if next.length < 2 ∨ cilen < 2 ∨ next.length < cilen then
        let (rc, out) := reqciEnd rejectIfDisagree confrej next rc out
        (rc, out, r)
      else
        let (orc, p, r) := reqciOption rejectIfDisagree r (next.getD 0 0) cilen ((next.take cilen).drop 2)
        let (rc, out) := reqciEnd rejectIfDisagree orc (next.take 2 ++ p) rc out
        reqciLoop rejectIfDisagree fuel (next.drop cilen) rc out r

/-- `ipcp_reqci`. -/
def ipcpReqci (r : Ipcp) (inp : List (BitVec 8)) (rejectIfDisagree : Bool) : BitVec 8 × List (BitVec 8) × Ipcp :=
  let r := { r with cisReceived := true, hisoptions := {} }
  let (rc, out, r) := reqciLoop rejectIfDisagree inp.length inp confack [] r
  let wo := r.wantoptions
  if rc ≠ confrej ∧ r.hisoptions.negAddr = false ∧ wo.reqAddr ∧ rejectIfDisagree = false then
    -- the peer is asked for its address
    let (out, r) := if rc = confack then ([], { r with wantoptions := { wo with reqAddr := false } }) else (out, r)
    (confnak, out ++ ciOfAddr ciAddr false wo.hisaddr 0, r)
  else (rc, out, r)

/-! ### The protocol -/

/-- `ipcp_up`, of which the options are left. -/
def ipcpUp (r : Ipcp) : Ipcp :=
  if r.hisoptions.negAddr then r
  else { r with hisoptions := { r.hisoptions with hisaddr := r.wantoptions.hisaddr } }

/-- `ipcp_nakci`, whose loop ends, if it does, in as many rounds as there are bytes. A machine for which it does not is taken to
go on, though it hangs. -/
def ipcpNakciEnds (s : LinkState) (r : Ipcp) (p : List (BitVec 8)) : ℤ × Ipcp := (ipcpNakci p.length s r p).getD (0, r)

/-- `ipcp_callbacks`. -/
def ipcpCallbacks : FsmCallbacks Ipcp where
  peerMru := Ipcp.peerMru
  resetci := some ipcpResetci
  cilen := some ipcpCilen
  addci := some ipcpAddci
  ackci := some fun _ ↦ ipcpAckci
  nakci := some ipcpNakciEnds
  rejci := some ipcpRejci
  reqci := some ipcpReqci
  up := some ipcpUp
  down := some id
  starting := none
  finished := some id
  retransmit := none
  extcode := none

end Lwip.Netif.Ppp
