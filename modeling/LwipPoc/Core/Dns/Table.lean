import LwipPoc.Core.Dns.Message
import LwipPoc.Foundation.Execution
import LwipPoc.Foundation.SlotLedger

/-!
# The DNS client

`dns_table` of `core/dns.c` and the functions that work on it. A `found` callback runs in the middle of `dns_recv`
or `dns_check_entry` and may call `dns_gethostbyname`, any number of times; so a call of a callback is where a step
ends, `DnsCtl` says where the function goes on, and `ret` is the return from the callback.

* `DNS_TABLE_SIZE` is the length of the table, and a parameter.
* A callback comes with its argument. What the entries are used for is recorded in a ledger of slots.
* What `dns_send` sends goes to `sent`. Whether it gets out is not seen in the table: its result is only printed.
-/

namespace Lwip.Dns

open Lwip.Ipv4

/-- `DNS_MAX_RETRIES`. -/
def dnsMaxRetries : BitVec 8 := 4

/-- `DNS_MAX_SERVERS`. -/
def dnsMaxServers : ℕ := 2

/-- `DNS_MAX_NAME_LENGTH`. -/
def dnsMaxNameLength : ℕ := 256

/-- `DNS_MSG_SIZE`. -/
def dnsMsgSize : ℕ := 512

/-- `DNS_SERVER_ADDRESS`. -/
def dnsServerAddress : U32 := 0xdede43d0

/-- The states of an entry. -/
inductive DnsState
  | unused
  | new
  | asking
  | done
  deriving DecidableEq, Repr

/-- A callback and its argument. -/
structure Found where
  found : ℕ
  arg : ℕ
  deriving DecidableEq, Repr

/-- `struct dns_table_entry`. -/
structure DnsTableEntry where
  state : DnsState
  numdns : BitVec 8
  tmr : BitVec 8
  retries : BitVec 8
  seqno : BitVec 8
  err : BitVec 8
  ttl : U32
  name : List (BitVec 8)
  ipaddr : U32
  found : Option Found
  deriving DecidableEq, Repr

/-- An entry that was never used. -/
def DnsTableEntry.zero : DnsTableEntry :=
  ⟨.unused, 0, 0, 0, 0, 0, 0, List.replicate dnsMaxNameLength 0, 0, none⟩

/-- The string in `name`. -/
def DnsTableEntry.hostname (e : DnsTableEntry) : List (BitVec 8) := e.name.takeWhile (· ≠ 0)

/-- Where a callback was called. -/
inductive DnsCtl
  /-- In no callback. -/
  | idle
  /-- In `dns_recv`, with an address. -/
  | answered (i : ℕ)
  /-- In `dns_recv`, behind `responseerr`. -/
  | refused (i : ℕ)
  /-- In `dns_check_entry`, after the last retry. -/
  | expired (i : ℕ)
  deriving DecidableEq, Repr

/-- What happens to the entries. -/
abbrev DnsEvent := SlotEvent ℕ Found (Option U32)

/-- The variables of the module, where the code has got to, and what has happened. -/
structure DnsClient where
  /-- `dns_pcb != NULL`. -/
  dnsPcb : Bool
  dnsSeqno : BitVec 8
  dnsTable : List DnsTableEntry
  dnsServers : List U32
  /-- `dns_payload`. -/
  payload : List (BitVec 8)
  ctl : DnsCtl
  log : List DnsEvent
  /-- The servers, by their numbers, and the messages sent to them. -/
  sent : List (BitVec 8 × List (BitVec 8))
  deriving Repr

namespace DnsClient

/-- Nothing has been done yet; the table has `n` entries. -/
def init (n : ℕ) : DnsClient :=
  ⟨false, 0, List.replicate n .zero, List.replicate dnsMaxServers 0, List.replicate dnsMsgSize 0, .idle, [], []⟩

/-- `dns_table[i]`. -/
def entry (s : DnsClient) (i : ℕ) : DnsTableEntry := s.dnsTable.getD i .zero

/-- `dns_table[i] = e`. -/
def put (s : DnsClient) (i : ℕ) (e : DnsTableEntry) : DnsClient := { s with dnsTable := s.dnsTable.set i e }

/-- The record that something happened. -/
def note (s : DnsClient) (e : DnsEvent) : DnsClient := { s with log := s.log ++ [e] }

/-- The entry is flushed. -/
def flush (s : DnsClient) (i : ℕ) : DnsClient := (s.put i { s.entry i with state := .unused, found := none }).note (.freed i)

/-- The callback of an entry is called, and the code will go on at `ctl`. -/
def call (s : DnsClient) (i : ℕ) (f : Found) (ipaddr : Option U32) (ctl : DnsCtl) : DnsClient :=
  { s.note (.called i f ipaddr) with ctl := ctl }

/-- `dns_setserver`. -/
def dnsSetserver (numdns : ℕ) (dnsserver : Option U32) (s : DnsClient) : DnsClient :=
  match dnsserver with
  | none => s
  | some addr =>
    if numdns < dnsMaxServers ∧ s.dnsPcb ∧ addr ≠ 0 then { s with dnsServers := s.dnsServers.set numdns addr } else s

/-- `dns_init`; `pcb` says whether `udp_new` gets a control block. -/
def dnsInit (pcb : Bool) (s : DnsClient) : DnsClient :=
  if s.dnsPcb then s else if pcb then dnsSetserver 0 (some dnsServerAddress) { s with dnsPcb := true } else s

/-- `dns_send` for an entry. -/
def dnsSend (i : ℕ) (s : DnsClient) : DnsClient :=
  { s with sent := s.sent ++ [((s.entry i).numdns, dnsQuery (s.entry i).hostname (BitVec.ofNat 8 i))] }

/-- `dns_check_entry`. -/
def dnsCheckEntry (i : ℕ) (s : DnsClient) : DnsClient :=
  let e := s.entry i
  match e.state with
  | .unused => s
  | .new => (s.put i { e with state := .asking, numdns := 0, tmr := 1, retries := 0 }).dnsSend i
  | .asking =>
    let e := { e with tmr := e.tmr - 1 }
    if e.tmr = 0 then
      let e := { e with retries := e.retries + 1 }
      if e.retries = dnsMaxRetries then
        if e.numdns.toNat + 1 < dnsMaxServers ∧ s.dnsServers.getD (e.numdns.toNat + 1) 0 ≠ 0 then
          -- change of server
          s.put i { e with numdns := e.numdns + 1, tmr := 1, retries := 0 }
        else
          match e.found with
          | some f => (s.put i e).call i f none (.expired i)
          | none => (s.put i e).flush i
      else (s.put i { e with tmr := e.retries }).dnsSend i
    else s.put i e
  | .done =>
    let e := { e with ttl := e.ttl - 1 }
    if e.ttl = 0 then (s.put i e).flush i else s.put i e

/-- The loop of `dns_check_entries` over `n` entries from `i` on, up to where a callback is called. -/
def dnsCheckEntries : ℕ → ℕ → DnsClient → DnsClient
  | 0, _, s => s
  | n + 1, i, s =>
    let s := dnsCheckEntry i s
    if s.ctl = .idle then dnsCheckEntries n (i + 1) s else s

/-- `dns_tmr`. -/
def dnsTmr (s : DnsClient) : DnsClient := if s.dnsPcb then dnsCheckEntries s.dnsTable.length 0 s else s

/-- `dns_lookup`, without a local host list. -/
def dnsLookup (s : DnsClient) (name : List (BitVec 8)) : U32 :=
  match s.dnsTable.find? fun e ↦ e.state = .done ∧ name = e.hostname with
  | some e => e.ipaddr
  | none => ipaddrNone

/-- The search of `dns_enqueue`: an unused entry, if there is one, and the oldest completed entry. -/
def searchEntries (dnsSeqno : BitVec 8) : List DnsTableEntry → ℕ → ℕ → ℕ → Option ℕ × ℕ
  | [], _, _, lseqi => (none, lseqi)
  | e :: es, i, lseq, lseqi =>
    if e.state = .unused then (some i, lseqi)
    else if e.state = .done ∧ lseq < dnsSeqno.toNat - e.seqno.toNat then
      searchEntries dnsSeqno es (i + 1) (dnsSeqno.toNat - e.seqno.toNat) i
    else searchEntries dnsSeqno es (i + 1) lseq lseqi

/-- The entry that `dns_enqueue` will use. -/
def dnsSlot (s : DnsClient) : Option ℕ :=
  match searchEntries s.dnsSeqno s.dnsTable 0 0 0 with
  | (some i, _) => some i
  | (none, lseqi) =>
    if s.dnsTable.length ≤ lseqi ∨ (s.entry lseqi).state ≠ .done then none else some lseqi

/-- `dns_enqueue`. -/
def dnsEnqueue (name : List (BitVec 8)) (found : Option Found) (s : DnsClient) : ErrT × DnsClient :=
  match s.dnsSlot with
  | none => (.mem, s)
  | some i =>
    let e := s.entry i
    let namelen := min name.length (dnsMaxNameLength - 1)
    let e :=
      { e with
        state := .new
        seqno := s.dnsSeqno
        found := found
        name := name.take namelen ++ 0 :: e.name.drop (namelen + 1) }
    let s := { s with dnsSeqno := s.dnsSeqno + 1 }
    (.inprogress, dnsCheckEntry i ((s.put i e).note (.took i found)))

/-- The test of the arguments of `dns_gethostbyname`. -/
def validArgs (s : DnsClient) (hostname : Option (List (BitVec 8))) (addr : Bool) : Bool :=
  s.dnsPcb && addr && hostname.any fun h ↦ h ≠ [] && h.length < dnsMaxNameLength

/-- The address of a host that is known: its name is an address, or it is in the table. -/
def knownAddr (s : DnsClient) (hostname : List (BitVec 8)) : U32 :=
  let ipaddr := ipaddrAddr hostname
  if ipaddr = ipaddrNone then s.dnsLookup hostname else ipaddr

/-- `dns_gethostbyname`, with what it stores to `addr`; `addr` is whether there is such a place. -/
def dnsGethostbyname (hostname : Option (List (BitVec 8))) (addr : Bool) (found : Option Found) (s : DnsClient) :
    ErrT × Option U32 × DnsClient :=
  if s.validArgs hostname addr then
    let hostname := hostname.getD []
    let ipaddr := s.knownAddr hostname
    if ipaddr ≠ ipaddrNone then (.ok, some ipaddr, s)
    else
      let r := dnsEnqueue hostname found s
      (r.1, none, r.2)
  else (.arg, none, s)

/-- `dns_recv`; `behindName` and `behind` are the memory behind the entry's name and behind `dns_payload`. -/
def dnsRecv (msg behindName behind : List (BitVec 8)) (s : DnsClient) : Option DnsClient :=
  if dnsMsgSize < msg.length ∨ msg.length < sizeofDnsHdr + sizeofDnsQuery + sizeofDnsAnswer then some s
  else
    let s := { s with payload := msg ++ s.payload.drop msg.length }
    (u16At s.payload 0).bind fun i ↦
      if i < s.dnsTable.length ∧ (s.entry i).state = .asking then
        let e := { s.entry i with state := .done }
        (dnsResponse (e.name ++ behindName) (s.payload ++ behind)).map fun
          | (err, none) =>
            let s := s.put i { e with err := err }
            match e.found with
            | some f => s.call i f none (.refused i)
            | none => s.flush i
          | (err, some (ttl, ipaddr)) =>
            let s := s.put i { e with err := err, ttl := ttl, ipaddr := ipaddr }
            match e.found with
            | some f => s.call i f (some ipaddr) (.answered i)
            | none => s
      else some s

/-- A callback returns. -/
def ret (s : DnsClient) : Option DnsClient :=
  match s.ctl with
  | .idle => none
  | .answered _ => some { s with ctl := .idle }
  | .refused i => some ({ s with ctl := .idle }.flush i)
  | .expired i =>
    some (dnsCheckEntries (s.dnsTable.length - (i + 1)) (i + 1) ({ s with ctl := .idle }.flush i))

end DnsClient

/-- What can happen. -/
inductive DnsLabel
  | init (pcb : Bool)
  | setserver (numdns : ℕ) (dnsserver : Option U32)
  /-- A call, from outside or from a callback. -/
  | gethostbyname (hostname : Option (List (BitVec 8))) (addr : Bool) (found : Option Found)
  /-- A message for `dns_pcb`. -/
  | recv (msg behindName behind : List (BitVec 8))
  | tmr
  /-- The return from a callback. -/
  | ret

/-- One step: messages and ticks wait until a callback has returned. -/
def dnsStep : DnsLabel → DnsClient → Option DnsClient
  | .init pcb, s => some (s.dnsInit pcb)
  | .setserver numdns dnsserver, s => some (s.dnsSetserver numdns dnsserver)
  | .gethostbyname hostname addr found, s => some (s.dnsGethostbyname hostname addr found).2.2
  | .recv msg behindName behind, s => if s.dnsPcb ∧ s.ctl = .idle then s.dnsRecv msg behindName behind else none
  | .tmr, s => if s.ctl = .idle then some s.dnsTmr else none
  | .ret, s => s.ret

end Lwip.Dns
