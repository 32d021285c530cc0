import LwipPoc.Arch
import LwipPoc.Foundation.Execution
import Mathlib.Data.BitVec
import Mathlib.Data.List.FinRange

/-!
# The ARP table

`netif/etharp.c`: the table of IP addresses and their Ethernet addresses, with the packets that wait
for an address to be resolved. The configuration is the repository's — static entries are supported,
`LWIP_DEBUG` is off, so that a freed entry keeps its fields — with `ARP_QUEUEING` a parameter.

`etharp_find_entry` is the heart of it. It **searches and recycles** in one function: it finds the
entry of an address, or picks one to be overwritten, and returns it in state `EMPTY` with the address
already filled in; its callers then set the state.

Addresses are in network order, as the code keeps them. Packets are of any type. What the environment
decides — whether a packet can be copied, whether a request can be sent — is in `EtharpEnv`. A failed
assertion is `none`.
-/

namespace Lwip.Arp

/-- An IP address, in network order. -/
abbrev IpAddr := BitVec 32

/-- An Ethernet address. -/
abbrev EthAddr := BitVec 48

/-- What the ARP table looks at of a `struct netif`. -/
structure Netif where
  num : ℕ
  ipAddr : IpAddr
  netmask : IpAddr
  gw : IpAddr
  /-- `NETIF_FLAG_BROADCAST`. -/
  broadcast : Bool
  deriving DecidableEq, Repr

/-- `err_t`, as far as it occurs here. -/
inductive Err
  | ok
  | mem
  | buf
  | rte
  | arg
  | link
  deriving DecidableEq, Repr

/-! ### Kinds of addresses -/

/-- `ip_addr_isany`. -/
def ipAddrIsAny (a : IpAddr) : Bool := a = 0

/-- `ip_addr_netcmp`. -/
def ipAddrNetcmp (a b mask : IpAddr) : Bool := a &&& mask = b &&& mask

/-- `ip_addr_ismulticast`. -/
def ipAddrIsMulticast (a : IpAddr) : Bool := a &&& 0xf0 = 0xe0

/-- `ip_addr_islinklocal`. -/
def ipAddrIsLinkLocal (a : IpAddr) : Bool := a &&& 0xffff = 0xfea9

/-- `ip_addr_isbroadcast`. -/
def ipAddrIsBroadcast (a : IpAddr) (netif : Netif) : Bool :=
  if ~~~a = 0 ∨ a = 0 then true
  else if netif.broadcast = false then false
  else if a = netif.ipAddr then false
  else ipAddrNetcmp a netif.ipAddr netif.netmask &&
    (a &&& ~~~netif.netmask = 0xffffffff &&& ~~~netif.netmask)

/-! ### The table -/

/-- `ARP_TABLE_SIZE`. -/
def arpTableSize : ℕ := 10

/-- `ARP_MAXAGE`. -/
def arpMaxage : ℕ := 240

/-- `ARP_AGE_REREQUEST_USED`. -/
def arpAgeRerequestUsed : ℕ := arpMaxage - 12

/-- `ARP_MAXPENDING`. -/
def arpMaxpending : ℕ := 2

/-- `enum etharp_state`. -/
inductive EtharpState
  | empty
  | pending
  | stable
  | stableRerequesting
  | static
  deriving DecidableEq, Repr

/-- `state >= ETHARP_STATE_STABLE`. -/
def EtharpState.resolved : EtharpState → Bool
  | empty | pending => false
  | stable | stableRerequesting | static => true

/-- `struct etharp_entry`. -/
structure EtharpEntry (π : Type*) where
  /-- The packets that wait for the address. -/
  q : List π
  ipaddr : IpAddr
  /-- The interface, by its number. -/
  netif : Option ℕ
  ethaddr : EthAddr
  state : EtharpState
  /-- The age, in a `u8_t`. -/
  ctime : ℕ
  deriving DecidableEq, Repr

/-- The index of an entry. -/
abbrev ArpIdx := Fin arpTableSize

/-- `arp_table`. -/
abbrev ArpTable (π : Type*) := ArpIdx → EtharpEntry π

/-- What is given to `linkoutput`. -/
inductive Frame (π : Type*)
  | ip (netif : ℕ) (p : π) (dest : EthAddr)
  | arpRequest (netif : ℕ) (ipaddr : IpAddr)
  | arpReply (netif : ℕ) (ipaddr : IpAddr) (dest : EthAddr)
  deriving DecidableEq, Repr

/-- The variables of the module, and what was sent so far. -/
structure Etharp (π : Type*) where
  table : ArpTable π
  /-- `etharp_cached_entry`. -/
  cached : ArpIdx
  sent : List (Frame π)

/-- What the environment decides in a call. -/
structure EtharpEnv where
  /-- The result of `etharp_request`. -/
  request : Err
  /-- The result of `linkoutput` for a packet. -/
  link : Err
  /-- The Ethernet header fits in front of the packet. -/
  header : Bool
  /-- The packet can be referenced or copied. -/
  takeOver : Bool
  /-- `MEMP_ARP_QUEUE` has an element left. -/
  queue : Bool
  deriving DecidableEq, Repr

variable {π : Type*}

namespace ArpTable

/-- `etharp_free_entry`. -/
def freeEntry (t : ArpTable π) (i : ArpIdx) : ArpTable π :=
  Function.update t i { t i with q := [], state := .empty }

/-- An entry at a tick of `etharp_tmr`. -/
def tmrEntry (e : EtharpEntry π) : EtharpEntry π :=
  if e.state = .empty ∨ e.state = .static then e
  else
    let e := { e with ctime := (e.ctime + 1) % 2 ^ 8 }
    if arpMaxage ≤ e.ctime ∨ e.state = .pending ∧ arpMaxpending ≤ e.ctime then
      { e with q := [], state := .empty }
    else if e.state = .stableRerequesting then { e with state := .stable }
    else e

/-- `etharp_tmr`. -/
def etharpTmr (t : ArpTable π) : ArpTable π := fun i ↦ tmrEntry (t i)

/-- `etharp_cleanup_netif`. -/
def etharpCleanupNetif (t : ArpTable π) (netif : ℕ) : ArpTable π := fun i ↦
  if (t i).state ≠ .empty ∧ (t i).netif = some netif then
    { t i with q := [], state := .empty }
  else t i

/-! ### `etharp_find_entry` -/

/-- The candidates that the sweep remembers: the first empty entry; and the oldest stable entry, the
oldest pending entries without and with packets, and their ages. -/
structure Candidates where
  empty : Option ArpIdx
  oldStable : Option ArpIdx
  ageStable : ℕ
  oldPending : Option ArpIdx
  agePending : ℕ
  oldQueue : Option ArpIdx
  ageQueue : ℕ

/-- Remember a candidate. -/
def Candidates.remember (c : Candidates) (e : EtharpEntry π) (i : ArpIdx) : Candidates :=
  match e.state with
  | .empty => if c.empty = none then { c with empty := some i } else c
  | .pending =>
    if e.q ≠ [] then
      if c.ageQueue ≤ e.ctime then { c with oldQueue := some i, ageQueue := e.ctime } else c
    else
      if c.agePending ≤ e.ctime then { c with oldPending := some i, agePending := e.ctime } else c
  | .stable | .stableRerequesting =>
    if c.ageStable ≤ e.ctime then { c with oldStable := some i, ageStable := e.ctime } else c
  | .static => c

/-- The sweep of `etharp_find_entry` over the entries `is`: the entry of the address, or the
candidates. -/
def sweep (t : ArpTable π) (ipaddr : IpAddr) : List ArpIdx → Candidates → ArpIdx ⊕ Candidates
  | [], c => .inr c
  | i :: is, c =>
    if (t i).state ≠ .empty ∧ ipaddr = (t i).ipaddr then .inl i
    else sweep t ipaddr is (c.remember (t i) i)

/-- Create a new entry in an empty one. -/
def create (t : ArpTable π) (ipaddr : IpAddr) (i : ArpIdx) : Option (Option ArpIdx × ArpTable π) :=
  if (t i).state = .empty then
    some (some i, Function.update t i { t i with ipaddr := ipaddr, ctime := 0 })
  else none

/-- `etharp_find_entry`: the entry, if there is one or one could be made. -/
def etharpFindEntry (t : ArpTable π) (ipaddr : IpAddr) (tryHard findOnly : Bool) :
    Option (Option ArpIdx × ArpTable π) :=
  match sweep t ipaddr (List.finRange arpTableSize) ⟨none, none, 0, none, 0, none, 0⟩ with
  | .inl i => some (some i, t)
  | .inr c =>
    if findOnly = true ∨ c.empty = none ∧ tryHard = false then some (none, t)
    else
      match c.empty with
      | some i => t.create ipaddr i
      | none =>
        match c.oldStable with
        | some i => if (t i).q = [] then (t.freeEntry i).create ipaddr i else none
        | none =>
          match c.oldPending with
          | some i => (t.freeEntry i).create ipaddr i
          | none =>
            match c.oldQueue with
            | some i => (t.freeEntry i).create ipaddr i
            | none => some (none, t)

end ArpTable

namespace Etharp

/-- Set an entry. -/
def setEntry (s : Etharp π) (i : ArpIdx) (e : EtharpEntry π) : Etharp π :=
  { s with table := Function.update s.table i e }

/-- Hand a frame to `linkoutput`. -/
def send (s : Etharp π) (f : Frame π) : Etharp π := { s with sent := s.sent ++ [f] }

/-! ### Updates -/

/-- `etharp_update_arp_entry`. -/
def etharpUpdateArpEntry (s : Etharp π) (netif : Netif) (ipaddr : IpAddr) (ethaddr : EthAddr)
    (tryHard findOnly static : Bool) : Option (Err × Etharp π) :=
  if ipAddrIsAny ipaddr || ipAddrIsBroadcast ipaddr netif || ipAddrIsMulticast ipaddr then
    some (.arg, s)
  else
    (s.table.etharpFindEntry ipaddr tryHard findOnly).map fun
      | (none, t) => (.mem, { s with table := t })
      | (some i, t) =>
        -- the packets that waited for the address are sent now
        (.ok, { s with
          table := Function.update t i { t i with
            state := if static = true then .static else .stable
            netif := some netif.num
            ethaddr := ethaddr
            ctime := 0
            q := [] }
          sent := s.sent ++ (t i).q.map fun p ↦ .ip netif.num p ethaddr })

/-- `etharp_add_static_entry`, with the interface that `ip_route` finds for the address. -/
def etharpAddStaticEntry (s : Etharp π) (route : Option Netif) (ipaddr : IpAddr)
    (ethaddr : EthAddr) : Option (Err × Etharp π) :=
  match route with
  | none => some (.rte, s)
  | some netif => s.etharpUpdateArpEntry netif ipaddr ethaddr true false true

/-- `etharp_remove_static_entry`. -/
def etharpRemoveStaticEntry (s : Etharp π) (ipaddr : IpAddr) : Option (Err × Etharp π) :=
  (s.table.etharpFindEntry ipaddr false true).map fun
    | (none, t) => (.mem, { s with table := t })
    | (some i, t) =>
      if (t i).state ≠ .static then (.arg, { s with table := t })
      else (.ok, { s with table := t.freeEntry i })

/-- An ARP packet, as `etharp_arp_input` sees it. -/
structure ArpPacket where
  /-- Long enough, and with the types and lengths of Ethernet and IP. -/
  wellFormed : Bool
  sipaddr : IpAddr
  dipaddr : IpAddr
  shwaddr : EthAddr
  /-- `ARP_REQUEST`. -/
  request : Bool
  deriving DecidableEq, Repr

/-- `etharp_arp_input`. -/
def etharpArpInput (s : Etharp π) (netif : Netif) (hdr : ArpPacket) : Option (Etharp π) :=
  if hdr.wellFormed = false then some s
  else
    let forUs : Bool := !ipAddrIsAny netif.ipAddr && hdr.dipaddr = netif.ipAddr
    (s.etharpUpdateArpEntry netif hdr.sipaddr hdr.shwaddr forUs (!forUs) false).map fun r ↦
      if hdr.request && forUs then r.2.send (.arpReply netif.num hdr.sipaddr hdr.shwaddr) else r.2

/-! ### Output -/

/-- `etharp_request`. -/
def etharpRequest (s : Etharp π) (env : EtharpEnv) (netif : Netif) (ipaddr : IpAddr) : Etharp π :=
  if env.request = .ok then s.send (.arpRequest netif.num ipaddr) else s

/-- The packets waiting for an address after another one: with `ARP_QUEUEING` all of them, without it
the last one. -/
def enqueue (queueing : Bool) (env : EtharpEnv) (q : List π) (p : π) : Err × List π :=
  if env.takeOver = false then (.mem, q)
  else if queueing = true then if env.queue = true then (.ok, q ++ [p]) else (.mem, q)
  else (.ok, [p])

/-- `etharp_query`. -/
def etharpQuery (queueing : Bool) (s : Etharp π) (env : EtharpEnv) (netif : Netif) (ipaddr : IpAddr)
    (q : Option π) : Option (Err × Etharp π) :=
  if ipAddrIsBroadcast ipaddr netif || ipAddrIsMulticast ipaddr || ipAddrIsAny ipaddr then
    some (.arg, s)
  else
    (s.table.etharpFindEntry ipaddr true false).map fun
      | (none, t) => (.mem, { s with table := t })
      | (some i, t) =>
        -- a fresh entry is marked as pending
        let state := if (t i).state = .empty then .pending else (t i).state
        let s := { s with table := Function.update t i { t i with state := state } }
        let s := if (s.table i).state = .pending ∨ q.isNone = true then
          s.etharpRequest env netif ipaddr else s
        match q with
        | none => (env.request, s)
        | some p =>
          if (s.table i).state.resolved = true then
            (env.link, ({ s with cached := i } : Etharp π).send (.ip netif.num p (s.table i).ethaddr))
          else
            let r := enqueue queueing env (s.table i).q p
            (r.1, s.setEntry i { s.table i with q := r.2 })

/-- `etharp_output_to_arp_index`. -/
def etharpOutputToArpIndex (s : Etharp π) (env : EtharpEnv) (netif : Netif) (p : π) (i : ArpIdx) :
    Option (Err × Etharp π) :=
  if (s.table i).state.resolved = true then
    let s := if (s.table i).state = .stable ∧ arpAgeRerequestUsed ≤ (s.table i).ctime then
      let s' := s.etharpRequest env netif (s.table i).ipaddr
      if env.request = .ok then s'.setEntry i { s.table i with state := .stableRerequesting }
      else s'
    else s
    some (env.link, s.send (.ip netif.num p (s.table i).ethaddr))
  else none

/-- The Ethernet address of a multicast address. -/
def mcastaddr (ipaddr : IpAddr) : EthAddr :=
  0x01005e#24 ++ (ipaddr.extractLsb' 8 8 &&& 0x7f) ++ ipaddr.extractLsb' 16 8 ++
    ipaddr.extractLsb' 24 8

/-- The address that a packet is sent to next: the destination, or the gateway. -/
def nextHop (netif : Netif) (ipaddr : IpAddr) : Option IpAddr :=
  if !ipAddrNetcmp ipaddr netif.ipAddr netif.netmask && !ipAddrIsLinkLocal ipaddr then
    if ipAddrIsAny netif.gw then none else some netif.gw
  else some ipaddr

/-- `etharp_output`. -/
def etharpOutput (queueing : Bool) (s : Etharp π) (env : EtharpEnv) (netif : Netif) (p : π)
    (ipaddr : IpAddr) : Option (Err × Etharp π) :=
  if env.header = false then some (.buf, s)
  else if ipAddrIsBroadcast ipaddr netif then
    some (env.link, s.send (.ip netif.num p (BitVec.allOnes 48)))
  else if ipAddrIsMulticast ipaddr then some (env.link, s.send (.ip netif.num p (mcastaddr ipaddr)))
  else
    match nextHop netif ipaddr with
    | none => some (.rte, s)
    | some dst =>
      if (s.table s.cached).state.resolved = true ∧ dst = (s.table s.cached).ipaddr then
        s.etharpOutputToArpIndex env netif p s.cached
      else
        match (List.finRange arpTableSize).find? fun i ↦
            (s.table i).state.resolved && dst = (s.table i).ipaddr with
        | some i => ({ s with cached := i } : Etharp π).etharpOutputToArpIndex env netif p i
        | none => s.etharpQuery queueing env netif dst (some p)

end Etharp

end Lwip.Arp
