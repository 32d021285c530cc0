import LwipPoc.Arch
import LwipPoc.Core.Dhcp.ParseReply
import LwipPoc.Foundation.Execution

/-!
# The DHCP client

`core/dhcp.c`: the negotiation of an address for an interface, with its timers. A client is what the functions see of it: the
interface, the `struct dhcp` that is attached to it, and the variables that all clients share. What it does is listed in
`acts`: the messages it sends, the ARP queries, the replies that it takes, and the addresses it gives to the interface.

Addresses and numbers of 32 bits are in host order. The constant fields of a message are left out, and so are the callbacks of
the interface, the routes, and the name servers of an acknowledgement.

The interface has its own turn in `dhcp_fine_tmr` and `dhcp_coarse_tmr`. The other interfaces are seen only by the transaction
id that they take, as `dhcp_inform` does.
-/

namespace Lwip.Core.Dhcp

/-! ### Constants -/

/-- The states of a client that are entered. -/
inductive DhcpState
  | off | requesting | rebooting | rebinding | renewing | selecting | checking | bound | backingOff
  deriving DecidableEq, Repr

/-- The types of messages. -/
def dhcpDiscoverMsg : BitVec 8 := 1
def dhcpOfferMsg : BitVec 8 := 2
def dhcpRequestMsg : BitVec 8 := 3
def dhcpDeclineMsg : BitVec 8 := 4
def dhcpAckMsg : BitVec 8 := 5
def dhcpNakMsg : BitVec 8 := 6
def dhcpReleaseMsg : BitVec 8 := 7
def dhcpInformMsg : BitVec 8 := 8

def dhcpBootreply : BitVec 8 := 2
def dhcpOptionRequestedIp : BitVec 8 := 50
def dhcpOptionParameterRequestList : BitVec 8 := 55
def dhcpOptionMaxMsgSize : BitVec 8 := 57
def dhcpOptionBroadcast : BitVec 8 := 28

/-- `DHCP_OPTIONS_LEN`, `DHCP_CHADDR_LEN` and `DHCP_MIN_REPLY_LEN`. -/
def dhcpOptionsLen : ℕ := 68
def dhcpChaddrLen : ℕ := 16
def dhcpMinReplyLen : ℕ := 44

/-- `DHCP_MAX_MSG_LEN_MIN_REQUIRED`. -/
def dhcpMaxMsgLenMinRequired : BitVec 16 := 576

/-- `DHCP_FINE_TIMER_MSECS` and `DHCP_COARSE_TIMER_SECS`. -/
def dhcpFineTimerMsecs : ℕ := 500
def dhcpCoarseTimerSecs : ℕ := 60

/-- `REBOOT_TRIES`. -/
def rebootTries : ℕ := 2

def ipAddrAny : BitVec 32 := 0
def ipAddrBroadcast : BitVec 32 := 0xffffffff

/-! ### What a client is -/

/-- What is put into a message that is sent. -/
structure DhcpMsg where
  messageType : BitVec 8
  xid : BitVec 32
  ciaddr : BitVec 32
  chaddr : List (BitVec 8)
  options : List (BitVec 8)
  deriving DecidableEq, Repr

/-- What a client does. -/
inductive DhcpAct
  | sent (m : DhcpMsg) (dst : BitVec 32)
  | queried (addr : BitVec 32)
  | took (msgType : BitVec 8) (xid yiaddr : BitVec 32)
  | ipaddr (addr : BitVec 32)
  deriving DecidableEq, Repr

/-- An interface with its client. -/
structure Client where
  hwaddr : List (BitVec 8)
  mtu : BitVec 16
  flagEtharp : Bool := true
  flagDhcp : Bool := false
  isUp : Bool := true
  ipAddr : BitVec 32 := 0
  netmask : BitVec 32 := 0
  gw : BitVec 32 := 0
  /-- The static variable `xid`. -/
  lastXid : BitVec 32 := 0xABCD0000
  rx : RxOptions := ⟨fun _ ↦ false, fun _ ↦ 0⟩
  /-- `netif->dhcp` is not `NULL`. -/
  attached : Bool := false
  /-- `dhcp->pcb` is not `NULL`. -/
  pcb : Bool := false
  xid : BitVec 32 := 0
  state : DhcpState := .off
  tries : ℕ := 0
  subnetMaskGiven : Bool := false
  requestTimeout : ℕ := 0
  t1Timeout : ℕ := 0
  t2Timeout : ℕ := 0
  serverIpAddr : BitVec 32 := 0
  offeredIpAddr : BitVec 32 := 0
  offeredSnMask : BitVec 32 := 0
  offeredGwAddr : BitVec 32 := 0
  offeredT0Lease : BitVec 32 := 0
  offeredT1Renew : BitVec 32 := 0
  offeredT2Rebind : BitVec 32 := 0
  acts : List DhcpAct := []

namespace Client

variable (c : Client)

/-! ### The interface -/

/-- `netif_set_ipaddr`, `netif_set_netmask` and `netif_set_gw`. -/
def netifSetAddr (ipAddr netmask gw : BitVec 32) : Client :=
  { c with ipAddr := ipAddr, netmask := netmask, gw := gw, acts := c.acts ++ [.ipaddr ipAddr] }

/-- `netif_set_down`. -/
def netifSetDown : Client := { c with isUp := false }

/-! ### Messages -/

/-- `dhcp_set_state`. -/
def dhcpSetState (newState : DhcpState) : Client :=
  if newState ≠ c.state then { c with state := newState, tries := 0, requestTimeout := 0 } else c

/-- `dhcp_option_short` and `dhcp_option_long`. -/
def dhcpOptionShort (value : BitVec 16) : List (BitVec 8) := [value.extractLsb' 8 8, value.extractLsb' 0 8]
def dhcpOptionLong (value : BitVec 32) : List (BitVec 8) :=
  [value.extractLsb' 24 8, value.extractLsb' 16 8, value.extractLsb' 8 8, value.extractLsb' 0 8]

/-- `dhcp_option_trailer`: zeros up to the length of the field, which is a multiple of four. -/
def dhcpOptionTrailer (options : List (BitVec 8)) : List (BitVec 8) :=
  (options ++ [dhcpOptionEnd]).rightpad dhcpOptionsLen 0

/-- `dhcp_create_msg`, the options, and what is done with the message: nothing, if there is no memory for it. -/
def dhcpSend (mem : Bool) (messageType : BitVec 8) (options : List (BitVec 8)) (dst : BitVec 32) : Client :=
  if mem then
    let lastXid := if c.tries = 0 then c.lastXid + 1 else c.lastXid
    let ciaddr :=
      if messageType = dhcpInformMsg ∨ messageType = dhcpDeclineMsg ∨
          messageType = dhcpRequestMsg ∧ (c.state = .renewing ∨ c.state = .rebinding) then c.ipAddr
      else 0
    let m : DhcpMsg :=
      { messageType := messageType, xid := lastXid, ciaddr := ciaddr, chaddr := c.hwaddr.rightpad dhcpChaddrLen 0,
        options := dhcpOptionTrailer ([dhcpOptionMessageType, 1, messageType] ++ options) }
    { c with lastXid := lastXid, xid := lastXid, acts := c.acts ++ [.sent m dst] }
  else c

/-- The end of a function that waits for an answer: one more try, and the time until the next. -/
def dhcpRetry (msecs : ℕ → ℕ) : Client :=
  let tries := (c.tries + 1) % 2 ^ 8
  { c with tries := tries, requestTimeout := (msecs tries + dhcpFineTimerMsecs - 1) / dhcpFineTimerMsecs }

/-- The times that are waited. -/
def backoffMsecs (tries : ℕ) : ℕ := (if tries < 6 then 2 ^ tries else 60) * 1000
def renewMsecs (tries : ℕ) : ℕ := if tries < 10 then tries * 2000 else 20 * 1000
def rebindMsecs (tries : ℕ) : ℕ := if tries < 10 then tries * 1000 else 10 * 1000

def maxMsgSize (size : BitVec 16) : List (BitVec 8) := [dhcpOptionMaxMsgSize, 2] ++ dhcpOptionShort size

def requestedIp (addr : BitVec 32) : List (BitVec 8) := [dhcpOptionRequestedIp, 4] ++ dhcpOptionLong addr

def parameterRequestList : List (BitVec 8) :=
  [dhcpOptionParameterRequestList, 4, dhcpOptionSubnetMask, dhcpOptionRouter, dhcpOptionBroadcast, dhcpOptionDnsServer]

/-- `dhcp_discover`. -/
def dhcpDiscover (mem : Bool) : Client :=
  (({ c with offeredIpAddr := 0 }.dhcpSetState .selecting).dhcpSend mem dhcpDiscoverMsg
    (maxMsgSize c.mtu ++ parameterRequestList) ipAddrBroadcast).dhcpRetry backoffMsecs

/-- `dhcp_select`. -/
def dhcpSelect (mem : Bool) : Client :=
  ((c.dhcpSetState .requesting).dhcpSend mem dhcpRequestMsg
    (maxMsgSize c.mtu ++ requestedIp c.offeredIpAddr ++ [dhcpOptionServerId, 4] ++ dhcpOptionLong c.serverIpAddr ++
      parameterRequestList) ipAddrBroadcast).dhcpRetry backoffMsecs

/-- `dhcp_renew`. -/
def dhcpRenew (mem : Bool) : Client :=
  ((c.dhcpSetState .renewing).dhcpSend mem dhcpRequestMsg (maxMsgSize c.mtu) c.serverIpAddr).dhcpRetry renewMsecs

/-- `dhcp_rebind`. -/
def dhcpRebind (mem : Bool) : Client :=
  ((c.dhcpSetState .rebinding).dhcpSend mem dhcpRequestMsg (maxMsgSize c.mtu) ipAddrBroadcast).dhcpRetry rebindMsecs

/-- `dhcp_reboot`. -/
def dhcpReboot (mem : Bool) : Client :=
  ((c.dhcpSetState .rebooting).dhcpSend mem dhcpRequestMsg
    (maxMsgSize dhcpMaxMsgLenMinRequired ++ requestedIp c.offeredIpAddr) ipAddrBroadcast).dhcpRetry rebindMsecs

/-- `dhcp_decline`. -/
def dhcpDecline (mem : Bool) : Client :=
  ((c.dhcpSetState .backingOff).dhcpSend mem dhcpDeclineMsg (requestedIp c.offeredIpAddr) ipAddrBroadcast).dhcpRetry
    fun _ ↦ 10 * 1000

/-- `dhcp_release`, which forgets the server before it sends the message to it. -/
def dhcpRelease (mem : Bool) : Client :=
  let c := { c.dhcpSetState .off with
    serverIpAddr := 0, offeredIpAddr := 0, offeredSnMask := 0, offeredGwAddr := 0
    offeredT0Lease := 0, offeredT1Renew := 0, offeredT2Rebind := 0 }
  (((c.dhcpSend mem dhcpReleaseMsg [] c.serverIpAddr).dhcpRetry rebindMsecs).netifSetDown).netifSetAddr ipAddrAny ipAddrAny
    ipAddrAny

/-- `dhcp_check`. -/
def dhcpCheck : Client :=
  let c := c.dhcpSetState .checking
  ({ c with acts := c.acts ++ [.queried c.offeredIpAddr] } : Client).dhcpRetry fun _ ↦ 500

/-! ### Leases -/

/-- The ticks of the coarse timer for a time in seconds, which is rounded in 32 bits. -/
def coarseTicks (secs : BitVec 32) : ℕ := max 1 (min ((secs + 30).toNat / dhcpCoarseTimerSecs) 0xffff)

/-- The network mask of the class of an address. -/
def classMask (addr : BitVec 32) : BitVec 32 :=
  let firstOctet := addr.extractLsb' 24 8
  if firstOctet ≤ 127 then 0xff000000 else if 192 ≤ firstOctet then 0xffffff00 else 0xffff0000

/-- `dhcp_bind`. -/
def dhcpBind : Client :=
  let t1 := if c.offeredT1Renew ≠ 0xffffffff then coarseTicks c.offeredT1Renew else c.t1Timeout
  let t2 := if c.offeredT2Rebind ≠ 0xffffffff then coarseTicks c.offeredT2Rebind else c.t2Timeout
  let t1 := if t2 ≤ t1 ∧ 0 < t2 then 0 else t1
  let snMask := if c.subnetMaskGiven then c.offeredSnMask else classMask c.offeredIpAddr
  let gwAddr := if c.offeredGwAddr = 0 then c.offeredIpAddr &&& snMask ||| 1 else c.offeredGwAddr
  let c := { c with t1Timeout := t1, t2Timeout := t2 }.netifSetAddr c.offeredIpAddr snMask gwAddr
  { c with isUp := true }.dhcpSetState .bound

/-- `dhcp_handle_ack`. -/
def dhcpHandleAck (yiaddr : BitVec 32) : Client :=
  let rx := c.rx
  let t0 := if rx.given dhcpOptionIdxLeaseTime then rx.val dhcpOptionIdxLeaseTime else c.offeredT0Lease
  { c with
    offeredT0Lease := t0
    offeredT1Renew := if rx.given dhcpOptionIdxT1 then rx.val dhcpOptionIdxT1 else t0 / 2
    offeredT2Rebind := if rx.given dhcpOptionIdxT2 then rx.val dhcpOptionIdxT2 else t0
    offeredIpAddr := yiaddr
    offeredSnMask := if rx.given dhcpOptionIdxSubnetMask then rx.val dhcpOptionIdxSubnetMask else 0
    subnetMaskGiven := rx.given dhcpOptionIdxSubnetMask
    offeredGwAddr := if rx.given dhcpOptionIdxRouter then rx.val dhcpOptionIdxRouter else 0 }

/-- `dhcp_handle_nak`. -/
def dhcpHandleNak (mem : Bool) : Client :=
  ((c.netifSetDown.netifSetAddr ipAddrAny ipAddrAny ipAddrAny).dhcpSetState .backingOff).dhcpDiscover mem

/-- `dhcp_handle_offer`. -/
def dhcpHandleOffer (mem : Bool) (yiaddr : BitVec 32) : Client :=
  if c.rx.given dhcpOptionIdxServerId then
    { c with serverIpAddr := c.rx.val dhcpOptionIdxServerId, offeredIpAddr := yiaddr }.dhcpSelect mem
  else c

/-! ### Timers -/

/-- `dhcp_timeout`. Two messages may be sent, and there may be memory for each. -/
def dhcpTimeout (mem mem' : Bool) : Client :=
  match c.state with
  | .backingOff | .selecting => c.dhcpDiscover mem
  | .requesting => if c.tries ≤ 5 then c.dhcpSelect mem else (c.dhcpRelease mem).dhcpDiscover mem'
  | .checking => if c.tries ≤ 1 then c.dhcpCheck else c.dhcpBind
  | .renewing => c.dhcpRenew mem
  | .rebinding => if c.tries ≤ 8 then c.dhcpRebind mem else (c.dhcpRelease mem).dhcpDiscover mem'
  | .rebooting => if c.tries < rebootTries then c.dhcpReboot mem else c.dhcpDiscover mem
  | .off | .bound => c

/-- `dhcp_fine_tmr`, for an interface. -/
def dhcpFineTmr (mem mem' : Bool) : Client :=
  if c.attached then
    if 1 < c.requestTimeout then { c with requestTimeout := c.requestTimeout - 1 }
    else if c.requestTimeout = 1 then { c with requestTimeout := 0 }.dhcpTimeout mem mem'
    else c
  else c

/-- The states in which `dhcp_t1_timeout` and `dhcp_t2_timeout` do something. -/
def Leased : Prop := c.state = .requesting ∨ c.state = .bound ∨ c.state = .renewing

instance : Decidable c.Leased := inferInstanceAs (Decidable (_ ∨ _ ∨ _))

/-- `dhcp_coarse_tmr`, for an interface. -/
def dhcpCoarseTmr (mem : Bool) : Client :=
  if c.attached then
    let t2 := c.t2Timeout
    let c := { c with t2Timeout := (t2 + 2 ^ 16 - 1) % 2 ^ 16 }
    if t2 = 1 then if c.Leased then c.dhcpRebind mem else c
    else
      let t1 := c.t1Timeout
      let c := { c with t1Timeout := (t1 + 2 ^ 16 - 1) % 2 ^ 16 }
      if t1 = 1 then if c.Leased then c.dhcpRenew mem else c else c
  else c

/-! ### Calls -/

/-- `dhcp_stop`. -/
def dhcpStop : Client :=
  let c := { c with flagDhcp := false }
  if c.attached then { c with pcb := false }.dhcpSetState .off else c

/-- `memset(dhcp, 0, sizeof(struct dhcp))`. -/
def dhcpClear : Client :=
  { c with
    pcb := false, xid := 0, state := .off, tries := 0, subnetMaskGiven := false
    requestTimeout := 0, t1Timeout := 0, t2Timeout := 0
    serverIpAddr := 0, offeredIpAddr := 0, offeredSnMask := 0, offeredGwAddr := 0
    offeredT0Lease := 0, offeredT1Renew := 0, offeredT2Rebind := 0 }

/-- `dhcp_start`, if there is memory for the `struct dhcp`, for a pcb and for the first message. -/
def dhcpStart (memDhcp memPcb mem : Bool) : ErrT × Client :=
  let c := { c with flagDhcp := false }
  if c.flagEtharp = false then (.arg, c)
  else if c.mtu < dhcpMaxMsgLenMinRequired then (.mem, c)
  else if c.attached = false ∧ memDhcp = false then (.mem, c)
  else
    let c := { c with attached := true }.dhcpClear
    if memPcb = false then (.mem, c)
    else
      let c := { c with pcb := true }.dhcpDiscover mem
      if mem = false then (.mem, c.dhcpStop) else (.ok, { c with flagDhcp := true })

/-- `dhcp_network_changed`. -/
def dhcpNetworkChanged (mem : Bool) : Client :=
  if c.attached then
    match c.state with
    | .rebinding | .renewing | .bound | .rebooting => { c.netifSetDown with tries := 0 }.dhcpReboot mem
    | .off => c
    | _ => { c with tries := 0 }.dhcpDiscover mem
  else c

/-- `dhcp_arp_reply`. -/
def dhcpArpReply (mem : Bool) (addr : BitVec 32) : Client :=
  if c.attached ∧ c.state = .checking ∧ addr = c.offeredIpAddr then c.dhcpDecline mem else c

/-! ### Replies -/

/-- A reply is taken. -/
def take (msgType : BitVec 8) (yiaddr : BitVec 32) : Client := { c with acts := c.acts ++ [.took msgType c.xid yiaddr] }

/-- What `dhcp_recv` does with a reply whose options have been decoded. -/
def dhcpHandle (mem : Bool) (yiaddr : BitVec 32) : Client :=
  if c.rx.given dhcpOptionIdxMsgType then
    let msgType := (c.rx.val dhcpOptionIdxMsgType).setWidth 8
    if msgType = dhcpAckMsg then
      match c.state with
      | .requesting => ((c.take msgType yiaddr).dhcpHandleAck yiaddr).dhcpCheck
      | .rebooting | .rebinding | .renewing => (c.take msgType yiaddr).dhcpBind
      | _ => c
    else if msgType = dhcpNakMsg ∧
        (c.state = .rebooting ∨ c.state = .requesting ∨ c.state = .rebinding ∨ c.state = .renewing) then
      (c.take msgType yiaddr).dhcpHandleNak mem
    else if msgType = dhcpOfferMsg ∧ c.state = .selecting then
      { c.take msgType yiaddr with requestTimeout := 0 }.dhcpHandleOffer mem yiaddr
    else c
  else c

/-- The bytes of a field of a reply. -/
def field (p : List Pbuf) (ofs len : ℕ) : List (BitVec 8) := (((p.head?.map Pbuf.payload).getD []).drop ofs).take len

/-- A reply is one to the last message of this client. -/
def IsReply (p : List Pbuf) : Prop :=
  dhcpMinReplyLen ≤ (p.head?.map Pbuf.len).getD 0 ∧ field p 0 1 = [dhcpBootreply] ∧
    field p 28 c.hwaddr.length = c.hwaddr ∧ ntohl (field p 4 4) = c.xid

instance (p : List Pbuf) : Decidable (c.IsReply p) := inferInstanceAs (Decidable (_ ∧ _ ∧ _ ∧ _))

/-- `dhcp_recv`, or nothing, if the options are not decoded in so many rounds or an assertion fails. -/
def dhcpRecv (behind : List Pbuf → ℕ → BitVec 8) (fuel : ℕ) (mem : Bool) (p : List Pbuf) : Option Client :=
  if c.IsReply p then
    match dhcpParseReply behind fuel p c.rx with
    | some (.returns .ok rx, _) => some ({ c with rx := rx }.dhcpHandle mem (ntohl (field p 16 4)))
    | some (.returns _ rx, _) => some { c with rx := rx }
    | some (.assertFails, _) | none => none
  else some c

end Client

/-! ### Runs -/

/-- What happens to a client: the calls, the timers, the messages that come in, and the transactions of others. -/
inductive DhcpEvent
  | start (memDhcp memPcb mem : Bool)
  | stop
  | renew (mem : Bool)
  | release (mem : Bool)
  | networkChanged (mem : Bool)
  | fineTmr (mem mem' : Bool)
  | coarseTmr (mem : Bool)
  | arpReply (mem : Bool) (addr : BitVec 32)
  | recv (behind : List Pbuf → ℕ → BitVec 8) (fuel : ℕ) (mem : Bool) (p : List Pbuf)
  | others (xid : BitVec 32)

/-- A step. `dhcp_renew` and `dhcp_release` are for a client that has been started, and a reply comes in through its pcb. -/
def dhcpStep : DhcpEvent → Client → Option Client
  | .start memDhcp memPcb mem, c => some (c.dhcpStart memDhcp memPcb mem).2
  | .stop, c => some c.dhcpStop
  | .renew mem, c => if c.attached ∧ c.pcb then some (c.dhcpRenew mem) else none
  | .release mem, c => if c.attached ∧ c.pcb then some (c.dhcpRelease mem) else none
  | .networkChanged mem, c => some (c.dhcpNetworkChanged mem)
  | .fineTmr mem mem', c => some (c.dhcpFineTmr mem mem')
  | .coarseTmr mem, c => some (c.dhcpCoarseTmr mem)
  | .arpReply mem addr, c => some (c.dhcpArpReply mem addr)
  | .recv behind fuel mem p, c => if c.attached ∧ c.pcb then c.dhcpRecv behind fuel mem p else none
  | .others xid, c => some { c with lastXid := xid }

/-- A client that has not been started. -/
def Client.Fresh (c : Client) : Prop :=
  c.attached = false ∧ c.pcb = false ∧ c.state = .off ∧ c.tries = 0 ∧ c.requestTimeout = 0 ∧ c.offeredIpAddr = 0 ∧ c.acts = []

instance (c : Client) : Decidable c.Fresh := inferInstanceAs (Decidable (_ ∧ _))

/-- A reply in one pbuf. -/
def bootReply (chaddr : List (BitVec 8)) (xid yiaddr : BitVec 32) (options : List (BitVec 8)) : List Pbuf :=
  let payload := [dhcpBootreply, 1, 6, 0] ++ Client.dhcpOptionLong xid ++ List.replicate 8 0 ++ Client.dhcpOptionLong yiaddr ++
    List.replicate 8 0 ++ chaddr.rightpad dhcpChaddrLen 0 ++ List.replicate (dhcpSnameLen + dhcpFileLen) 0 ++
    [0x63, 0x82, 0x53, 0x63] ++ options
  [⟨payload, payload.length⟩]

/-- An interface. -/
def freshClient : Client := { hwaddr := [2, 0, 0, 0, 0, 1], mtu := 1500 }

end Lwip.Core.Dhcp
