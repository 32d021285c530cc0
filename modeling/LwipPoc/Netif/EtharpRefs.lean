import LwipPoc.Foundation.WaitingRooms
import LwipPoc.Netif.EtharpInv

/-!
# References to packets in the ARP table

A packet that waits for an address is held by a reference: `etharp_query` takes one with `pbuf_ref`, or
by copying the packet, and whoever takes the packet off the queue has to release it. The ledger runs the
functions of the ARP table and **writes down** in which order references are taken, put into a queue and
released, which addresses are learned, and what is sent from a queue. Packets that are sent without
having been queued are listed beside it.

The functions repeat those of the table, with the log. Forgetting the log gives these back: every call
of the ledger is a call of the table (`step_erase`).
-/

namespace Lwip.Arp

/-- A pbuf of a packet, as far as `etharp_query` looks at it. -/
structure QPbuf where
  /-- `type == PBUF_ROM`. -/
  rom : Bool
  len : ℕ
  totLen : ℕ
  deriving DecidableEq, Repr

/-- What the environment decides in a call. -/
structure RefEnv where
  /-- The result of `etharp_request`. -/
  request : Err
  /-- The result of `linkoutput` for a packet. -/
  link : Err
  /-- The Ethernet header fits in front of the packet. -/
  header : Bool
  /-- A copy can be allocated. -/
  alloc : Bool
  /-- `MEMP_ARP_QUEUE` has an element left. -/
  queue : Bool
  deriving DecidableEq, Repr

/-- What becomes of the attempt to take over a packet. -/
inductive TakeOver
  /-- No copy could be allocated. -/
  | nothing
  /-- A copy was allocated, but the packet does not fit into it. -/
  | tooSmall
  | done
  deriving DecidableEq, Repr

/-- The search for a pbuf that is not a `PBUF_ROM`, because of which the packet must be copied. -/
def copyNeeded : List QPbuf → Option (Option QPbuf)
  | [] => some none
  | p :: ps =>
    -- "no packet queues allowed!"
    if p.len ≠ p.totLen ∨ ps = [] then if p.rom = false then some (some p) else copyNeeded ps
    else none

/-- Take over a packet: reference it, or copy it. The copy gets the size of the chain **from the pbuf on
at which the search ended**; if this is less than the packet, `pbuf_copy` refuses to copy. -/
def takeOver (env : RefEnv) (pbufs : List QPbuf) : Option TakeOver :=
  (copyNeeded pbufs).map fun
    | none => .done
    | some p =>
      if env.alloc = false then .nothing
      else if (pbufs.head?.map QPbuf.totLen).getD 0 ≤ p.totLen then .done
      else .tooSmall

/-- The environment of the table. -/
def RefEnv.toEnv (env : RefEnv) (pbufs : List QPbuf) : EtharpEnv :=
  ⟨env.request, env.link, env.header, takeOver env pbufs = some .done, env.queue⟩

/-- The table with its log. -/
structure ArpLedger (ρ : Type*) where
  arp : Etharp ρ
  log : List (Rooms.Event IpAddr ρ EthAddr)
  /-- What was sent without having been queued. -/
  direct : List (ρ × EthAddr)

variable {ρ π : Type*}

namespace ArpLedger

open Etharp (ArpPacket mcastaddr)

/-- Write down. -/
def note (s : ArpLedger ρ) (es : List (Rooms.Event IpAddr ρ EthAddr)) : ArpLedger ρ :=
  { s with log := s.log ++ es }

/-- `etharp_free_entry`. -/
def freeEntry (s : ArpLedger ρ) (i : ArpIdx) : ArpLedger ρ :=
  ({ s with arp := { s.arp with table := s.arp.table.freeEntry i } } : ArpLedger ρ).note
    ((s.arp.table i).q.map .released)

/-- Create a new entry in an empty one. -/
def create (s : ArpLedger ρ) (ipaddr : IpAddr) (i : ArpIdx) : Option (Option ArpIdx × ArpLedger ρ) :=
  (s.arp.table.create ipaddr i).map fun r ↦ (r.1, { s with arp := { s.arp with table := r.2 } })

/-- `etharp_find_entry`. -/
def etharpFindEntry (s : ArpLedger ρ) (ipaddr : IpAddr) (tryHard findOnly : Bool) :
    Option (Option ArpIdx × ArpLedger ρ) :=
  match ArpTable.sweep s.arp.table ipaddr (List.finRange arpTableSize)
      ⟨none, none, 0, none, 0, none, 0⟩ with
  | .inl i => some (some i, s)
  | .inr c =>
    if findOnly = true ∨ c.empty = none ∧ tryHard = false then some (none, s)
    else
      match c.empty with
      | some i => s.create ipaddr i
      | none =>
        match c.oldStable with
        | some i => if (s.arp.table i).q = [] then (s.freeEntry i).create ipaddr i else none
        | none =>
          match c.oldPending with
          | some i => (s.freeEntry i).create ipaddr i
          | none =>
            match c.oldQueue with
            | some i => (s.freeEntry i).create ipaddr i
            | none => some (none, s)

/-- `etharp_update_arp_entry`: the queue is emptied by sending and releasing. -/
def etharpUpdateArpEntry (s : ArpLedger ρ) (netif : Netif) (ipaddr : IpAddr) (ethaddr : EthAddr)
    (tryHard findOnly static : Bool) : Option (Err × ArpLedger ρ) :=
  if ipAddrIsAny ipaddr || ipAddrIsBroadcast ipaddr netif || ipAddrIsMulticast ipaddr then
    some (.arg, s)
  else
    (s.etharpFindEntry ipaddr tryHard findOnly).map fun
      | (none, s) => (.mem, s)
      | (some i, s) =>
        let arp : Etharp ρ := { s.arp with
          table := Function.update s.arp.table i { s.arp.table i with
            state := if static = true then .static else .stable
            netif := some netif.num
            ethaddr := ethaddr
            ctime := 0
            q := [] }
          sent := s.arp.sent ++ (s.arp.table i).q.map fun p ↦ .ip netif.num p ethaddr }
        (.ok, ({ s with arp := arp } : ArpLedger ρ).note (.opened ipaddr ethaddr ::
          (s.arp.table i).q.flatMap fun p ↦ [.served p ethaddr, .released p]))

/-- `etharp_add_static_entry`. -/
def etharpAddStaticEntry (s : ArpLedger ρ) (route : Option Netif) (ipaddr : IpAddr)
    (ethaddr : EthAddr) : Option (Err × ArpLedger ρ) :=
  match route with
  | none => some (.rte, s)
  | some netif => s.etharpUpdateArpEntry netif ipaddr ethaddr true false true

/-- `etharp_remove_static_entry`. -/
def etharpRemoveStaticEntry (s : ArpLedger ρ) (ipaddr : IpAddr) : Option (Err × ArpLedger ρ) :=
  (s.etharpFindEntry ipaddr false true).map fun
    | (none, s) => (.mem, s)
    | (some i, s) =>
      if (s.arp.table i).state ≠ .static then (.arg, s) else (.ok, s.freeEntry i)

/-- A function of the table that neither touches queues nor sends packets. -/
def quietly (s : ArpLedger ρ) (f : Etharp ρ → Etharp ρ) : ArpLedger ρ := { s with arp := f s.arp }

/-- `etharp_arp_input`. -/
def etharpArpInput (s : ArpLedger ρ) (netif : Netif) (hdr : ArpPacket) : Option (ArpLedger ρ) :=
  if hdr.wellFormed = false then some s
  else
    let forUs : Bool := !ipAddrIsAny netif.ipAddr && hdr.dipaddr = netif.ipAddr
    (s.etharpUpdateArpEntry netif hdr.sipaddr hdr.shwaddr forUs (!forUs) false).map fun r ↦
      if hdr.request && forUs then
        r.2.quietly fun arp ↦ arp.send (.arpReply netif.num hdr.sipaddr hdr.shwaddr)
      else r.2

/-- The loop of a function that visits every entry and may free it: what becomes of an entry, and the
packets it had if it is freed. -/
def visit (f : EtharpEntry ρ → EtharpEntry ρ × List ρ) (s : ArpLedger ρ) (i : ArpIdx) : ArpLedger ρ :=
  (s.quietly fun arp ↦ arp.setEntry i (f (arp.table i)).1).note
    ((f (s.arp.table i)).2.map .released)

/-- An entry at a tick of `etharp_tmr`. -/
def tmrEntry (e : EtharpEntry ρ) : EtharpEntry ρ × List ρ :=
  if e.state = .empty ∨ e.state = .static then (e, [])
  else
    let e := { e with ctime := (e.ctime + 1) % 2 ^ 8 }
    if arpMaxage ≤ e.ctime ∨ e.state = .pending ∧ arpMaxpending ≤ e.ctime then
      ({ e with q := [], state := .empty }, e.q)
    else if e.state = .stableRerequesting then ({ e with state := .stable }, [])
    else (e, [])

/-- `etharp_tmr`. -/
def etharpTmr (s : ArpLedger ρ) : ArpLedger ρ := (List.finRange arpTableSize).foldl (visit tmrEntry) s

/-- An entry in `etharp_cleanup_netif`. -/
def cleanupEntry (netif : ℕ) (e : EtharpEntry ρ) : EtharpEntry ρ × List ρ :=
  if e.state ≠ .empty ∧ e.netif = some netif then ({ e with q := [], state := .empty }, e.q)
  else (e, [])

/-- `etharp_cleanup_netif`. -/
def etharpCleanupNetif (s : ArpLedger ρ) (netif : ℕ) : ArpLedger ρ :=
  (List.finRange arpTableSize).foldl (visit (cleanupEntry netif)) s

/-- Queue a packet: the result, the queue, and what is written down. -/
def enqueue (queueing : Bool) (env : RefEnv) (q : List ρ) (p : ρ) :
    TakeOver → Err × List ρ × List (Rooms.Event IpAddr ρ EthAddr)
  | .nothing => (.mem, q, [])
  | .tooSmall => (.mem, q, [.taken p, .released p])
  | .done =>
    if queueing = true then
      if env.queue = true then (.ok, q ++ [p], [.taken p, .admitted p])
      else (.mem, q, [.taken p, .released p])
    else (.ok, [p], .taken p :: (q.map .released ++ [.admitted p]))

/-- Send a packet that was not queued. -/
def sendDirectly (s : ArpLedger ρ) (netif : ℕ) (p : ρ) (ethaddr : EthAddr) : ArpLedger ρ :=
  { s with arp := s.arp.send (.ip netif p ethaddr), direct := s.direct ++ [(p, ethaddr)] }

/-- `etharp_query`. -/
def etharpQuery (queueing : Bool) (s : ArpLedger ρ) (env : RefEnv) (netif : Netif) (ipaddr : IpAddr)
    (q : Option (ρ × List QPbuf)) : Option (Err × ArpLedger ρ) :=
  if ipAddrIsBroadcast ipaddr netif || ipAddrIsMulticast ipaddr || ipAddrIsAny ipaddr then
    some (.arg, s)
  else
    (s.etharpFindEntry ipaddr true false).bind fun
      | (none, s) => some (.mem, s)
      | (some i, s) =>
        -- a fresh entry is marked as pending
        let state := if (s.arp.table i).state = .empty then .pending else (s.arp.table i).state
        let s := s.quietly fun arp ↦ arp.setEntry i { arp.table i with state := state }
        let s := if state = .pending ∨ q.isNone = true then
          s.quietly fun arp ↦ arp.etharpRequest (env.toEnv []) netif ipaddr else s
        match q with
        | none => some (env.request, s)
        | some (p, pbufs) =>
          if state.resolved = true then
            some (env.link, (s.quietly fun arp ↦ { arp with cached := i }).sendDirectly netif.num p
              (s.arp.table i).ethaddr)
          else
            (takeOver env pbufs).map fun taken ↦
              let r := enqueue queueing env (s.arp.table i).q p taken
              (r.1, (s.quietly fun arp ↦ arp.setEntry i { arp.table i with q := r.2.1 }).note r.2.2)

/-- `etharp_output_to_arp_index`. -/
def etharpOutputToArpIndex (s : ArpLedger ρ) (env : RefEnv) (netif : Netif) (p : ρ) (i : ArpIdx) :
    Option (Err × ArpLedger ρ) :=
  if (s.arp.table i).state.resolved = true then
    let e := s.arp.table i
    let s := if e.state = .stable ∧ arpAgeRerequestUsed ≤ e.ctime then
      let s' := s.quietly fun arp ↦ arp.etharpRequest (env.toEnv []) netif e.ipaddr
      if env.request = .ok then
        s'.quietly fun arp ↦ arp.setEntry i { e with state := .stableRerequesting }
      else s'
    else s
    some (env.link, s.sendDirectly netif.num p (s.arp.table i).ethaddr)
  else none

/-- `etharp_output`. -/
def etharpOutput (queueing : Bool) (s : ArpLedger ρ) (env : RefEnv) (netif : Netif) (p : ρ)
    (pbufs : List QPbuf) (ipaddr : IpAddr) : Option (Err × ArpLedger ρ) :=
  if env.header = false then some (.buf, s)
  else if ipAddrIsBroadcast ipaddr netif then
    some (env.link, s.sendDirectly netif.num p (BitVec.allOnes 48))
  else if ipAddrIsMulticast ipaddr then
    some (env.link, s.sendDirectly netif.num p (mcastaddr ipaddr))
  else
    match Etharp.nextHop netif ipaddr with
    | none => some (.rte, s)
    | some dst =>
      if (s.arp.table s.arp.cached).state.resolved = true ∧
          dst = (s.arp.table s.arp.cached).ipaddr then
        s.etharpOutputToArpIndex env netif p s.arp.cached
      else
        match (List.finRange arpTableSize).find? fun i ↦
            (s.arp.table i).state.resolved && dst = (s.arp.table i).ipaddr with
        | some i => (s.quietly fun arp ↦ { arp with cached := i }).etharpOutputToArpIndex env netif p i
        | none => s.etharpQuery queueing env netif dst (some (p, pbufs))

end ArpLedger

/-! ### Runs -/

/-- A reference to a packet: the number of the call that was given the packet, and the address that it is
to be sent to next. -/
structure Ref (π : Type*) where
  call : ℕ
  nextHop : IpAddr
  packet : π
  deriving DecidableEq, Repr

/-- A call of the module. -/
inductive RefCall (π : Type*)
  | arpInput (netif : Netif) (hdr : Etharp.ArpPacket)
  | addStaticEntry (route : Option Netif) (ipaddr : IpAddr) (ethaddr : EthAddr)
  | removeStaticEntry (ipaddr : IpAddr)
  | cleanupNetif (netif : ℕ)
  | output (env : RefEnv) (netif : Netif) (p : π) (pbufs : List QPbuf) (ipaddr : IpAddr)
  | query (env : RefEnv) (netif : Netif) (ipaddr : IpAddr) (q : Option (π × List QPbuf))
  | tmr

/-- The ledger with the number of calls, and the results of those that were given a packet. -/
structure RefRun (π : Type*) where
  ledger : ArpLedger (Ref π)
  calls : ℕ
  results : List (Ref π × Err)

namespace RefRun

/-- Before the first call. -/
def init : RefRun π := ⟨⟨Etharp.init, [], []⟩, 0, []⟩

/-- After a call without a packet. -/
def next (s : RefRun π) (ledger : ArpLedger (Ref π)) : RefRun π := ⟨ledger, s.calls + 1, s.results⟩

/-- After a call with a packet. -/
def result (s : RefRun π) (r : Ref π) (res : Err × ArpLedger (Ref π)) : RefRun π :=
  ⟨res.2, s.calls + 1, s.results ++ [(r, res.1)]⟩

/-- What a call does. -/
def step (queueing : Bool) : RefCall π → RefRun π → Option (RefRun π)
  | .arpInput netif hdr, s => (s.ledger.etharpArpInput netif hdr).map s.next
  | .addStaticEntry route ipaddr ethaddr, s =>
    (s.ledger.etharpAddStaticEntry route ipaddr ethaddr).map fun r ↦ s.next r.2
  | .removeStaticEntry ipaddr, s =>
    (s.ledger.etharpRemoveStaticEntry ipaddr).map fun r ↦ s.next r.2
  | .cleanupNetif netif, s => some (s.next (s.ledger.etharpCleanupNetif netif))
  | .output env netif p pbufs ipaddr, s =>
    let r : Ref π := ⟨s.calls, (Etharp.nextHop netif ipaddr).getD ipaddr, p⟩
    (s.ledger.etharpOutput queueing env netif r pbufs ipaddr).map (s.result r)
  | .query env netif ipaddr none, s =>
    (s.ledger.etharpQuery queueing env netif ipaddr none).map fun r ↦ s.next r.2
  | .query env netif ipaddr (some (p, pbufs)), s =>
    let r : Ref π := ⟨s.calls, ipaddr, p⟩
    (s.ledger.etharpQuery queueing env netif ipaddr (some (r, pbufs))).map (s.result r)
  | .tmr, s => some (s.next s.ledger.etharpTmr)

/-- The call of the table. -/
def toCall (calls : ℕ) : RefCall π → Etharp.Call (Ref π)
  | .arpInput netif hdr => .arpInput netif hdr
  | .addStaticEntry route ipaddr ethaddr => .addStaticEntry route ipaddr ethaddr
  | .removeStaticEntry ipaddr => .removeStaticEntry ipaddr
  | .cleanupNetif netif => .cleanupNetif netif
  | .output env netif p pbufs ipaddr => .output (env.toEnv pbufs) netif
      ⟨calls, (Etharp.nextHop netif ipaddr).getD ipaddr, p⟩ ipaddr
  | .query env netif ipaddr q => .query (env.toEnv ((q.map Prod.snd).getD [])) netif ipaddr
      (q.map fun x ↦ ⟨calls, ipaddr, x.1⟩)
  | .tmr => .tmr

end RefRun

/-! ### Forgetting the log -/

namespace ArpLedger

variable {s s' : ArpLedger ρ} {ipaddr : IpAddr} {i : ArpIdx} {tryHard findOnly : Bool}

@[simp] theorem note_arp (es : List (Rooms.Event IpAddr ρ EthAddr)) : (s.note es).arp = s.arp := rfl

@[simp] theorem note_log (es : List (Rooms.Event IpAddr ρ EthAddr)) : (s.note es).log = s.log ++ es := rfl

@[simp] theorem note_direct (es : List (Rooms.Event IpAddr ρ EthAddr)) :
    (s.note es).direct = s.direct := rfl

@[simp] theorem quietly_arp (f : Etharp ρ → Etharp ρ) : (s.quietly f).arp = f s.arp := rfl

@[simp] theorem quietly_log (f : Etharp ρ → Etharp ρ) : (s.quietly f).log = s.log := rfl

@[simp] theorem quietly_direct (f : Etharp ρ → Etharp ρ) : (s.quietly f).direct = s.direct := rfl

/-- Only the table changes. -/
def SameBut (s s' : ArpLedger ρ) : Prop := s'.arp.cached = s.arp.cached ∧ s'.arp.sent = s.arp.sent

theorem create_erase {o : Option ArpIdx} (h : s.create ipaddr i = some (o, s')) :
    s.arp.table.create ipaddr i = some (o, s'.arp.table) ∧ SameBut s s' := by
  obtain ⟨⟨o', t⟩, hbase, heq⟩ := Option.map_eq_some_iff.1 h
  obtain ⟨rfl, rfl⟩ := Prod.mk.inj heq
  exact ⟨hbase, rfl, rfl⟩

/-- The entry found is the entry found in the table. -/
theorem etharpFindEntry_erase {o : Option ArpIdx}
    (h : s.etharpFindEntry ipaddr tryHard findOnly = some (o, s')) :
    s.arp.table.etharpFindEntry ipaddr tryHard findOnly = some (o, s'.arp.table) ∧ SameBut s s' := by
  rw [etharpFindEntry] at h
  rw [ArpTable.etharpFindEntry]
  generalize s.arp.table.sweep ipaddr (List.finRange arpTableSize)
    ⟨none, none, 0, none, 0, none, 0⟩ = found at h ⊢
  rcases found with i | ⟨empty, oldStable, _, oldPending, _, oldQueue, _⟩
  · obtain ⟨rfl, rfl⟩ := Prod.mk.inj (Option.some.inj h)
    exact ⟨rfl, rfl, rfl⟩
  simp only at h ⊢
  by_cases hstop : findOnly = true ∨ empty = none ∧ tryHard = false
  · rw [if_pos hstop] at h ⊢
    obtain ⟨rfl, rfl⟩ := Prod.mk.inj (Option.some.inj h)
    exact ⟨rfl, rfl, rfl⟩
  rw [if_neg hstop] at h ⊢
  rcases empty with - | i
  · rcases oldStable with - | i
    · rcases oldPending with - | i
      · rcases oldQueue with - | i
        · obtain ⟨rfl, rfl⟩ := Prod.mk.inj (Option.some.inj h)
          exact ⟨rfl, rfl, rfl⟩
        · exact create_erase (s := s.freeEntry i) h
      · exact create_erase (s := s.freeEntry i) h
    · simp only at h ⊢
      by_cases hq : (s.arp.table i).q = []
      · rw [if_pos hq] at h ⊢
        exact create_erase (s := s.freeEntry i) h
      · rw [if_neg hq] at h
        cases h
  · exact create_erase h

variable {e : Err} {netif : Netif} {ethaddr : EthAddr} {static queueing : Bool} {env : RefEnv}

theorem etharpUpdateArpEntry_erase
    (h : s.etharpUpdateArpEntry netif ipaddr ethaddr tryHard findOnly static = some (e, s')) :
    s.arp.etharpUpdateArpEntry netif ipaddr ethaddr tryHard findOnly static = some (e, s'.arp) := by
  rw [etharpUpdateArpEntry] at h
  rw [Etharp.etharpUpdateArpEntry]
  by_cases hkind : (ipAddrIsAny ipaddr || ipAddrIsBroadcast ipaddr netif ||
      ipAddrIsMulticast ipaddr) = true
  · rw [if_pos hkind] at h ⊢
    obtain ⟨rfl, rfl⟩ := Prod.mk.inj (Option.some.inj h)
    rfl
  rw [if_neg hkind] at h ⊢
  obtain ⟨⟨o, s₁⟩, hfind, heq⟩ := Option.map_eq_some_iff.1 h
  obtain ⟨hbase, hcached, hsent⟩ := etharpFindEntry_erase hfind
  rw [hbase, Option.map_some]
  rcases o with - | i
  · obtain ⟨rfl, rfl⟩ := Prod.mk.inj heq
    rw [← hcached, ← hsent]
  · obtain ⟨rfl, rfl⟩ := Prod.mk.inj heq
    simp [← hcached, ← hsent]

theorem etharpAddStaticEntry_erase {route : Option Netif}
    (h : s.etharpAddStaticEntry route ipaddr ethaddr = some (e, s')) :
    s.arp.etharpAddStaticEntry route ipaddr ethaddr = some (e, s'.arp) := by
  rcases route with - | netif
  · obtain ⟨rfl, rfl⟩ := Prod.mk.inj (Option.some.inj h)
    rfl
  · exact etharpUpdateArpEntry_erase h

theorem etharpRemoveStaticEntry_erase (h : s.etharpRemoveStaticEntry ipaddr = some (e, s')) :
    s.arp.etharpRemoveStaticEntry ipaddr = some (e, s'.arp) := by
  rw [etharpRemoveStaticEntry] at h
  rw [Etharp.etharpRemoveStaticEntry]
  obtain ⟨⟨o, s₁⟩, hfind, heq⟩ := Option.map_eq_some_iff.1 h
  obtain ⟨hbase, hcached, hsent⟩ := etharpFindEntry_erase hfind
  rw [hbase, Option.map_some]
  rcases o with - | i
  · obtain ⟨rfl, rfl⟩ := Prod.mk.inj heq
    rw [← hcached, ← hsent]
  · simp only at heq ⊢
    split_ifs at heq ⊢ <;> obtain ⟨rfl, rfl⟩ := Prod.mk.inj heq
    · rw [← hcached, ← hsent]
    · simp [freeEntry, ← hcached, ← hsent]

theorem etharpArpInput_erase {hdr : Etharp.ArpPacket} (h : s.etharpArpInput netif hdr = some s') :
    s.arp.etharpArpInput netif hdr = some s'.arp := by
  rw [etharpArpInput] at h
  rw [Etharp.etharpArpInput]
  extract_lets at h ⊢
  by_cases hwf : hdr.wellFormed = false
  · rw [if_pos hwf] at h ⊢
    rw [← Option.some.inj h]
  · rw [if_neg hwf] at h ⊢
    obtain ⟨⟨_, s₁⟩, hupdate, heq⟩ := Option.map_eq_some_iff.1 h
    rw [etharpUpdateArpEntry_erase hupdate, Option.map_some, ← heq]
    simp only
    split_ifs <;> rfl

/-- Visiting every entry: the entries do not look at each other. -/
theorem foldl_visit_arp (f : EtharpEntry ρ → EtharpEntry ρ × List ρ) {is : List ArpIdx}
    (his : is.Nodup) (s : ArpLedger ρ) :
    (is.foldl (visit f) s).arp =
      { s.arp with table := fun j ↦ if j ∈ is then (f (s.arp.table j)).1 else s.arp.table j } := by
  induction is generalizing s with
  | nil => simp
  | cons i is ih =>
    obtain ⟨hi, his⟩ := List.nodup_cons.1 his
    rw [List.foldl_cons, ih his]
    refine congrArg (fun t ↦ ({ s.arp with table := t } : Etharp ρ)) (funext fun j ↦ ?_)
    rcases eq_or_ne j i with rfl | hne
    · simp [visit, Etharp.setEntry, hi]
    · simp [visit, Etharp.setEntry, hne]

theorem etharpTmr_erase (s : ArpLedger ρ) :
    s.etharpTmr.arp = { s.arp with table := s.arp.table.etharpTmr } := by
  rw [etharpTmr, foldl_visit_arp tmrEntry (List.nodup_finRange _)]
  refine congrArg (fun t ↦ ({ s.arp with table := t } : Etharp ρ)) (funext fun j ↦ ?_)
  rw [if_pos (List.mem_finRange j), ArpTable.etharpTmr, tmrEntry, ArpTable.tmrEntry]
  simp only
  split_ifs <;> rfl

theorem etharpCleanupNetif_erase (s : ArpLedger ρ) (n : ℕ) :
    (s.etharpCleanupNetif n).arp = { s.arp with table := s.arp.table.etharpCleanupNetif n } := by
  rw [etharpCleanupNetif, foldl_visit_arp (cleanupEntry n) (List.nodup_finRange _)]
  refine congrArg (fun t ↦ ({ s.arp with table := t } : Etharp ρ)) (funext fun j ↦ ?_)
  rw [if_pos (List.mem_finRange j), ArpTable.etharpCleanupNetif, cleanupEntry]
  split_ifs <;> rfl

@[simp] theorem toEnv_request (pbufs : List QPbuf) : (env.toEnv pbufs).request = env.request := rfl

@[simp] theorem toEnv_link (pbufs : List QPbuf) : (env.toEnv pbufs).link = env.link := rfl

/-- Queueing depends on the environment only through what was taken over. -/
theorem enqueue_erase {taken : TakeOver} {pbufs : List QPbuf} (htaken : takeOver env pbufs = some taken)
    (q : List ρ) (p : ρ) :
    Etharp.enqueue queueing (env.toEnv pbufs) q p =
      ((enqueue queueing env q p taken).1, (enqueue queueing env q p taken).2.1) := by
  rw [Etharp.enqueue, RefEnv.toEnv, htaken]
  rcases taken with - | - | -
  · rfl
  · rfl
  · rw [enqueue]
    simp only [decide_true, Bool.true_eq_false, if_false]
    split_ifs <;> rfl

theorem etharpQuery_erase {q : Option (ρ × List QPbuf)}
    (h : s.etharpQuery queueing env netif ipaddr q = some (e, s')) :
    s.arp.etharpQuery queueing (env.toEnv ((q.map Prod.snd).getD [])) netif ipaddr (q.map Prod.fst) =
      some (e, s'.arp) := by
  rw [etharpQuery] at h
  rw [Etharp.etharpQuery]
  by_cases hkind : (ipAddrIsBroadcast ipaddr netif || ipAddrIsMulticast ipaddr ||
      ipAddrIsAny ipaddr) = true
  · rw [if_pos hkind] at h ⊢
    obtain ⟨rfl, rfl⟩ := Prod.mk.inj (Option.some.inj h)
    rfl
  rw [if_neg hkind] at h ⊢
  obtain ⟨⟨o, s₁⟩, hfind, hcall⟩ := Option.bind_eq_some_iff.1 h
  obtain ⟨hbase, hcached, hsent⟩ := etharpFindEntry_erase hfind
  rw [hbase, Option.map_some]
  rcases o with - | i
  · obtain ⟨rfl, rfl⟩ := Prod.mk.inj (Option.some.inj hcall)
    rw [← hcached, ← hsent]
  · obtain ⟨⟨t, c, fs⟩, l, d⟩ := s₁
    obtain rfl : c = s.arp.cached := hcached
    obtain rfl : fs = s.arp.sent := hsent
    simp only [quietly, Etharp.setEntry, Function.update_self] at hcall ⊢
    generalize (if (t i).state = .empty then .pending else (t i).state) = st at hcall ⊢
    rcases q with - | ⟨p, pbufs⟩
    · simp only [Option.isNone_none, Option.map_none, or_true, if_true, Option.some.injEq,
        Prod.mk.injEq] at hcall ⊢
      obtain ⟨rfl, rfl⟩ := hcall
      exact ⟨rfl, rfl⟩
    · simp only [Option.isNone_some, Option.map_some, Bool.false_eq_true, or_false, Option.getD_some]
        at hcall ⊢
      by_cases hpending : st = .pending
      · subst hpending
        have hres : EtharpState.pending.resolved = false := rfl
        simp only [Etharp.etharpRequest_table, Function.update_self, hres, if_true,
          Bool.false_eq_true, if_false] at hcall ⊢
        obtain ⟨taken, htaken, heq⟩ := Option.map_eq_some_iff.1 hcall
        obtain ⟨rfl, rfl⟩ := Prod.mk.inj heq
        rw [enqueue_erase htaken]
        rfl
      · simp only [hpending, if_false, Function.update_self] at hcall ⊢
        by_cases hres : st.resolved = true
        · rw [if_pos hres] at hcall ⊢
          obtain ⟨rfl, rfl⟩ := Prod.mk.inj (Option.some.inj hcall)
          rfl
        · rw [if_neg hres] at hcall ⊢
          obtain ⟨taken, htaken, heq⟩ := Option.map_eq_some_iff.1 hcall
          obtain ⟨rfl, rfl⟩ := Prod.mk.inj heq
          rw [enqueue_erase htaken]
          rfl

theorem etharpOutputToArpIndex_erase {p : ρ} (pbufs : List QPbuf)
    (h : s.etharpOutputToArpIndex env netif p i = some (e, s')) :
    s.arp.etharpOutputToArpIndex (env.toEnv pbufs) netif p i = some (e, s'.arp) := by
  rw [etharpOutputToArpIndex] at h
  rw [Etharp.etharpOutputToArpIndex]
  by_cases hres : (s.arp.table i).state.resolved = true
  · rw [if_pos hres] at h ⊢
    obtain ⟨rfl, rfl⟩ := Prod.mk.inj (Option.some.inj h)
    by_cases hage : (s.arp.table i).state = .stable ∧ arpAgeRerequestUsed ≤ (s.arp.table i).ctime
    · by_cases hreq : env.request = .ok
      · have hreq' : (env.toEnv pbufs).request = .ok := hreq
        simp only [if_pos hage, if_pos hreq, if_pos hreq']
        rfl
      · have hreq' : ¬ (env.toEnv pbufs).request = .ok := hreq
        simp only [if_pos hage, if_neg hreq, if_neg hreq']
        rfl
    · simp only [if_neg hage]
      rfl
  · rw [if_neg hres] at h
    cases h

theorem etharpOutput_erase {p : ρ} {pbufs : List QPbuf}
    (h : s.etharpOutput queueing env netif p pbufs ipaddr = some (e, s')) :
    s.arp.etharpOutput queueing (env.toEnv pbufs) netif p ipaddr = some (e, s'.arp) := by
  have hheader : (env.toEnv pbufs).header = env.header := rfl
  rw [etharpOutput] at h
  rw [Etharp.etharpOutput, hheader]
  by_cases hroom : env.header = false
  · rw [if_pos hroom] at h ⊢
    obtain ⟨rfl, rfl⟩ := Prod.mk.inj (Option.some.inj h)
    rfl
  rw [if_neg hroom] at h ⊢
  by_cases hbroad : ipAddrIsBroadcast ipaddr netif = true
  · rw [if_pos hbroad] at h ⊢
    obtain ⟨rfl, rfl⟩ := Prod.mk.inj (Option.some.inj h)
    rfl
  rw [if_neg hbroad] at h ⊢
  by_cases hmulti : ipAddrIsMulticast ipaddr = true
  · rw [if_pos hmulti] at h ⊢
    obtain ⟨rfl, rfl⟩ := Prod.mk.inj (Option.some.inj h)
    rfl
  rw [if_neg hmulti] at h ⊢
  cases hhop : Etharp.nextHop netif ipaddr with
  | none =>
    rw [hhop] at h
    obtain ⟨rfl, rfl⟩ := Prod.mk.inj (Option.some.inj h)
    rfl
  | some dst =>
    rw [hhop] at h
    simp only at h ⊢
    by_cases hcache : (s.arp.table s.arp.cached).state.resolved = true ∧
        dst = (s.arp.table s.arp.cached).ipaddr
    · rw [if_pos hcache] at h ⊢
      exact etharpOutputToArpIndex_erase pbufs h
    · rw [if_neg hcache] at h ⊢
      cases hfind : (List.finRange arpTableSize).find? fun i ↦
          (s.arp.table i).state.resolved && dst = (s.arp.table i).ipaddr with
      | some i =>
        rw [hfind] at h
        exact etharpOutputToArpIndex_erase (s := s.quietly fun arp ↦ { arp with cached := i }) pbufs h
      | none =>
        rw [hfind] at h
        exact etharpQuery_erase h

end ArpLedger

namespace RefRun

variable {s s' : RefRun π} {queueing : Bool}

/-- **A call of the ledger** is a call of the table. -/
theorem step_erase {c : RefCall π} (h : step queueing c s = some s') :
    Etharp.step queueing (toCall s.calls c) s.ledger.arp = some s'.ledger.arp := by
  have hsnd : ∀ {x : Option (Err × Etharp (Ref π))} {e arp}, x = some (e, arp) →
      x.map Prod.snd = some arp := fun hx ↦ by rw [hx, Option.map_some]
  rcases c with ⟨netif, hdr⟩ | ⟨route, ipaddr, ethaddr⟩ | ipaddr | n | ⟨env, netif, p, pbufs, ipaddr⟩ |
    ⟨env, netif, ipaddr, q⟩ | -
  · obtain ⟨l, hcall, rfl⟩ := Option.map_eq_some_iff.1 h
    exact ArpLedger.etharpArpInput_erase hcall
  · obtain ⟨⟨e, l⟩, hcall, rfl⟩ := Option.map_eq_some_iff.1 h
    exact hsnd (ArpLedger.etharpAddStaticEntry_erase hcall)
  · obtain ⟨⟨e, l⟩, hcall, rfl⟩ := Option.map_eq_some_iff.1 h
    exact hsnd (ArpLedger.etharpRemoveStaticEntry_erase hcall)
  · rw [← Option.some.inj h]
    exact congrArg some (s.ledger.etharpCleanupNetif_erase n).symm
  · obtain ⟨⟨e, l⟩, hcall, rfl⟩ := Option.map_eq_some_iff.1 h
    exact hsnd (ArpLedger.etharpOutput_erase hcall)
  · rcases q with - | ⟨p, pbufs⟩
    · obtain ⟨⟨e, l⟩, hcall, rfl⟩ := Option.map_eq_some_iff.1 h
      exact hsnd (ArpLedger.etharpQuery_erase hcall)
    · obtain ⟨⟨e, l⟩, hcall, rfl⟩ := Option.map_eq_some_iff.1 h
      exact hsnd (ArpLedger.etharpQuery_erase hcall)
  · rw [← Option.some.inj h]
    exact congrArg some s.ledger.etharpTmr_erase.symm

/-- **A run of the ledger** is a run of the table. -/
theorem run_erase {cs : List (RefCall π)} (h : runLabels (step queueing) cs init = some s) :
    ∃ cs', runLabels (Etharp.step queueing) cs' Etharp.init = some s.ledger.arp := by
  refine runLabels_invariant (I := fun s : RefRun π ↦
    ∃ cs', runLabels (Etharp.step queueing) cs' Etharp.init = some s.ledger.arp)
    ⟨[], rfl⟩ (fun c s s' ⟨cs', hcs'⟩ hstep ↦ ?_) h
  exact ⟨cs' ++ [toCall s.calls c],
    (runLabels_concat_eq_some _).2 ⟨_, hcs', step_erase hstep⟩⟩

end RefRun

end Lwip.Arp
