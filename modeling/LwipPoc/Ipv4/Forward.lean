import LwipPoc.Ipv4.InputOwnership

/-!
# `ip_forward`, and who takes over the packet

`ip_forward` and `ip_route` of `ipv4/ip.c`, for a build with `IP_FORWARD`, `IP_FRAG` and without
`IP_FORWARD_ALLOW_TX_ON_RX_NETIF`. `ip_forward` only **borrows** its packet: the reference of
`ip_input` is released after it, whatever it did.

`InputOwnership` says what the stubs of the proof-of-concept build lose. Here the upper layers are any
that keep to their contract: the input functions of UDP and TCP **consume** the packet, a raw pcb may,
and the output function of an interface does not. Then **every reference is released or passed on
exactly once** on every way out of `ip_input` (`ipInput_consumes`), whatever the packet, the
interfaces, the queue of the reassembly and the allocations are.
-/

namespace Lwip.Ipv4

open Lwip.Core IpHdr

variable {ι : Type*}

/-! ### `ip_forward` -/

/-- What `ip_forward` finds around it. -/
structure ForwardEnv (ι : Type*) where
  /-- `PBUF_FLAG_LLBCAST`. -/
  llbcast : Bool
  /-- `PBUF_FLAG_LLMCAST`. -/
  llmcast : Bool
  /-- `netif_default`. -/
  netifDefault : Option IpNetif
  /-- `netif->mtu`. -/
  mtu : IpNetif → ℕ
  /-- `netif->output` releases the packet it is given. -/
  consumes : IpNetif → IpPacket → Bool
  /-- The message of `icmp_time_exceeded`, if it can be allocated. -/
  timeExceeded : Option (List ι)
  /-- The message of `icmp_dest_unreach`, if it can be allocated. -/
  unreach : Option (List ι)
  /-- The fragments that `ip_frag` sends until it is through, or out of memory: the pbufs, and the
  references to the packet, that each of them is made of. -/
  frags : List (IpPacket × List ι)

/-- `IP_EXPERIMENTAL`, as it is applied to an address in network order. -/
def ipExperimental (a : Arp.IpAddr) : Bool := a &&& 0xf0000000 = 0xf0000000

/-- `IP_MULTICAST`. -/
def ipMulticast (a : Arp.IpAddr) : Bool := a &&& 0xf0000000 = 0xe0000000

/-- `IP_CLASSA`. -/
def ipClassA (a : Arp.IpAddr) : Bool := a &&& 0x80000000 = 0

/-- `ip_canforward`. -/
def ipCanforward (fwd : ForwardEnv ι) (dest : Arp.IpAddr) : Bool :=
  if fwd.llbcast then false
  else if fwd.llmcast && !ipMulticast dest then false
  else if ipExperimental dest then false
  else if ipClassA dest then !(dest &&& 0xff000000 = 0 || dest &&& 0xff000000 = 0x7f000000)
  else true

/-- `ip_route`. -/
def ipRoute (cfg : IpConfig) (fwd : ForwardEnv ι) (dest : Arp.IpAddr) : Option IpNetif :=
  match cfg.netifList.find? fun netif ↦
    netif.up && Arp.ipAddrNetcmp dest netif.ipAddr netif.netmask with
  | some netif => some netif
  | none => fwd.netifDefault.filter IpNetif.up

/-- The header with one hop less, and its checksum. -/
def forwardHdr (h : IpHdr) : IpHdr :=
  { h with
    ttl := (h.ttl + 2 ^ 8 - 1) % 2 ^ 8
    -- `PP_HTONS(0xffffU - 0x100)` and `PP_HTONS(0x100)`
    chksum := if 0xfffe ≤ h.chksum then (h.chksum + 1 + 1) % 2 ^ 16 else h.chksum + 1 }

/-- What `ip_forward` and the interface did: the pbufs allocated, and those released. -/
structure Forwarded (ι : Type*) where
  allocated : List ι
  released : List ι

/-- A message that is sent, and released. -/
def Forwarded.message (m : Option (List ι)) : Forwarded ι := ⟨m.getD [], m.getD []⟩

/-- `ip_frag`: each fragment is sent on the interface, and released. -/
def ipFrag (fwd : ForwardEnv ι) (netif : IpNetif) : List (IpPacket × List ι) → Forwarded ι
  | [] => ⟨[], []⟩
  | (q, ids) :: rest =>
    let r := ipFrag fwd netif rest
    ⟨ids ++ r.allocated, (if fwd.consumes netif q then ids else []) ++ (ids ++ r.released)⟩

/-- **`ip_forward`**. -/
def ipForward (cfg : IpConfig) (fwd : ForwardEnv ι) (inp : IpNetif) (p : IpPacket) (ids : List ι) :
    Forwarded ι :=
  if ipCanforward fwd p.hdr.destAddr = false then ⟨[], []⟩
  else if Arp.ipAddrIsLinkLocal p.hdr.destAddr then ⟨[], []⟩
  else
    match ipRoute cfg fwd p.hdr.destAddr with
    | none => ⟨[], []⟩
    | some netif =>
      if netif = inp then ⟨[], []⟩
      else
        let h := forwardHdr p.hdr
        if h.ttl = 0 then
          if h.proto ≠ 1 then .message fwd.timeExceeded else ⟨[], []⟩
        else if fwd.mtu netif ≠ 0 ∧ fwd.mtu netif < pbufTotLen p.pbufs then
          -- `IP_DF`
          if h.offset / 2 ^ 14 % 2 = 0 then ipFrag fwd netif fwd.frags
          else .message fwd.unreach
        else if fwd.consumes netif { p with hdr := h } then ⟨[], ids⟩
        else ⟨[], []⟩

/-- The packet that `ip_input` passes to `ip_forward`. -/
def IpResult.forwarded (res : IpResult ι) : Option IpPacket :=
  (res.passed.find? fun x ↦ x.1 = Receiver.forward).map Prod.snd

/-- **`ip_input` with `ip_forward`**: what is passed on to `ip_forward` goes through it. -/
def ipInputForward (cfg : IpConfig) (env : IpEnv ι) (fwd : ForwardEnv ι) (inp : IpNetif)
    (s : ReassLedger ι) (p : List (ι × Pbuf)) : Option (IpResult ι) :=
  (ipInput cfg env inp s p).map fun res ↦
    match res.forwarded with
    | none => res
    | some q =>
      let f := ipForward cfg fwd inp q ((p.map Prod.fst).take q.pbufs.length)
      { res with
        allocated := f.allocated ++ res.allocated
        released := f.released ++ res.released }

/-! ### The contracts -/

/-- The input functions of UDP and TCP **consume** the packet. -/
def UpperLayers.Consuming (upper : UpperLayers) : Prop :=
  ∀ q, upper.udpInput q = true ∧ upper.tcpInput q = true

/-- The output functions of the interfaces only **borrow** it. -/
def ForwardEnv.Borrows (fwd : ForwardEnv ι) : Prop := ∀ netif q, fwd.consumes netif q = false

/-- **Every reference is released or passed on exactly once**: what was in the queue, the packet, and
what was allocated, is afterwards in the queue, released, or taken over by an upper layer. -/
def Consumed (s : ReassLedger ι) (ids : List ι) (res : IpResult ι) : Prop :=
  (s.held ++ ids ++ res.allocated).Perm (res.state.held ++ res.released ++ res.taken)

variable {cfg : IpConfig} {env : IpEnv ι} {fwd : ForwardEnv ι} {inp : IpNetif} {s : ReassLedger ι}
  {p : List (ι × Pbuf)} {q : IpPacket} {ids : List ι} {res : IpResult ι} {dest : Arp.IpAddr}

/-! ### Borrowing -/

theorem ipFrag_borrows (hfwd : fwd.Borrows) (netif : IpNetif) (frags : List (IpPacket × List ι)) :
    (ipFrag fwd netif frags).released = (ipFrag fwd netif frags).allocated := by
  induction frags with
  | nil => rfl
  | cons frag rest ih =>
    obtain ⟨q, ids⟩ := frag
    simp [ipFrag, hfwd netif q, ih]

/-- **`ip_forward` borrows**: it releases what it allocates, and not the packet. -/
theorem ipForward_borrows (hfwd : fwd.Borrows) (q : IpPacket) (ids : List ι) :
    (ipForward cfg fwd inp q ids).released = (ipForward cfg fwd inp q ids).allocated := by
  rw [ipForward]
  split_ifs
  · rfl
  · rfl
  · split
    · rfl
    · dsimp only
      split_ifs with _ _ _ _ _ hcons
      · rfl
      · rfl
      · rfl
      · exact ipFrag_borrows hfwd _ _
      · rfl
      · rw [hfwd] at hcons
        cases hcons
      · rfl

/-! ### `ip_input` -/

/-- **The upper layers** release the packet, or take it over. -/
theorem upperInput_consumes (hupper : cfg.upper.Consuming)
    (hcall : upperInput cfg env inp s dest q ids = some res) :
    res.state = s ∧ (ids ++ res.allocated).Perm (res.released ++ res.taken) := by
  obtain ⟨hudp, htcp⟩ := hupper q
  rw [upperInput, hudp, htcp] at hcall
  by_cases hraw : cfg.upper.rawInput q = true
  · rw [if_pos hraw] at hcall
    cases hcall
    exact ⟨rfl, by simp⟩
  rw [if_neg hraw] at hcall
  simp only [if_true] at hcall
  split_ifs at hcall
  · cases hcall
    exact ⟨rfl, by simp⟩
  · cases hcall
    exact ⟨rfl, by simp⟩
  · obtain ⟨⟨allocated, released⟩, hicmp, heq⟩ := Option.map_eq_some_iff.1 hcall
    cases heq
    exact ⟨rfl, by simpa using (icmpInput_conserves hicmp).symm⟩
  · cases hcall
    exact ⟨rfl, by simpa using List.perm_append_comm⟩
  · cases hcall
    exact ⟨rfl, by simp⟩

/-- A datagram for this host, which may be a fragment. -/
theorem deliver_consumes (hs : s.Fits) (hids : ids.length = q.pbufs.length)
    (hupper : cfg.upper.Consuming) (hcall : deliver cfg env inp s q ids = some res) :
    res.state.Fits ∧ Consumed s ids res := by
  rw [deliver] at hcall
  by_cases hfrag : q.hdr.offset % 2 ^ 14 = 0
  · rw [if_neg (not_not.2 hfrag)] at hcall
    obtain ⟨hstate, hperm⟩ := upperInput_consumes hupper hcall
    refine ⟨hstate ▸ hs, ?_⟩
    rw [Consumed, hstate, List.append_assoc, List.append_assoc]
    exact hperm.append_left _
  · rw [if_pos hfrag] at hcall
    obtain ⟨⟨o, t, freed⟩, hreass, hcall⟩ := Option.bind_eq_some_iff.1 hcall
    have hcons := ReassLedger.ipReass_conserves hs hids hreass
    cases o with
    | none =>
      cases hcall
      exact ⟨hcons.fits, by simpa [Consumed] using hcons.perm⟩
    | some r =>
      obtain ⟨r, back⟩ := r
      obtain ⟨res', hcall', rfl⟩ := Option.map_eq_some_iff.1 hcall
      obtain ⟨hstate, hupp⟩ := upperInput_consumes hupper hcall'
      refine ⟨hstate ▸ hcons.fits, ?_⟩
      have hperm : (s.held ++ ids).Perm (t.held ++ freed ++ back) := hcons.perm
      simp only [Consumed, hstate]
      rw [← Multiset.coe_eq_coe] at hperm hupp ⊢
      simp only [← Multiset.coe_add] at hperm hupp ⊢
      rw [hperm, add_assoc _ (back : Multiset ι), hupp]
      abel

/-- A packet that is released on the way. -/
theorem consumed_drop (s : ReassLedger ι) (passed : List (Receiver × IpPacket)) (ids : List ι) :
    Consumed s ids ⟨s, passed, [], ids, []⟩ := by
  simp [Consumed]

/-- A packet behind the checks of its header. -/
theorem route_consumes (hs : s.Fits) (hids : ids.length = q.pbufs.length)
    (hupper : cfg.upper.Consuming) (hcall : route cfg env inp s q ids = some res) :
    res.state.Fits ∧ Consumed s ids res := by
  rw [route] at hcall
  by_cases hsrc : (Arp.ipAddrIsBroadcast q.hdr.srcAddr inp.toNetif ||
      Arp.ipAddrIsMulticast q.hdr.srcAddr) = true
  · rw [if_pos hsrc] at hcall
    cases hcall
    exact ⟨hs, consumed_drop _ _ _⟩
  · rw [if_neg hsrc] at hcall
    split at hcall
    · split_ifs at hcall <;> cases hcall <;> exact ⟨hs, consumed_drop _ _ _⟩
    · exact deliver_consumes hs hids hupper hcall

/-- What was trimmed is released. -/
theorem Consumed.trim {n : ℕ} (hcons : Consumed s (ids.take n) res) :
    Consumed s ids { res with released := ids.drop n ++ res.released } := by
  rw [Consumed, ← Multiset.coe_eq_coe] at hcons ⊢
  simp only [← Multiset.coe_add] at hcons ⊢
  have hsplit : (ids : Multiset ι) = (ids.take n : Multiset ι) + (ids.drop n : Multiset ι) := by
    rw [Multiset.coe_add, List.take_append_drop]
  calc (s.held : Multiset ι) + ids + res.allocated
      = s.held + ids.take n + res.allocated + ids.drop n := by
        rw [hsplit]
        abel
    _ = res.state.held + (ids.drop n + res.released) + res.taken := by
      rw [hcons]
      abel

/-- A call without `ip_forward`. -/
theorem ipInput_consumed (hs : s.Fits) (hupper : cfg.upper.Consuming)
    (hcall : ipInput cfg env inp s p = some res) :
    res.state.Fits ∧ Consumed s (p.map Prod.fst) res := by
  cases p with
  | nil => cases hcall
  | cons x rest =>
    obtain ⟨i, first⟩ := x
    rw [ipInput] at hcall
    dsimp only at hcall
    split_ifs at hcall
    · obtain ⟨ps, hps, hcall⟩ := Option.bind_eq_some_iff.1 hcall
      obtain ⟨res', hroute, rfl⟩ := Option.map_eq_some_iff.1 hcall
      have hlen := (length_realloc hps (List.cons_ne_nil _ _)).2
      have hids : ((i :: rest.map Prod.fst).take ps.length).length =
          (trimmed env ps).pbufs.length := by
        simpa [List.length_take, trimmed] using hlen
      obtain ⟨hfits, hcons⟩ := route_consumes hs hids hupper hroute
      exact ⟨hfits, hcons.trim⟩
    · cases hcall
      exact ⟨hs, consumed_drop _ _ _⟩

/-- What is borrowed does not matter. -/
theorem Consumed.borrow {more : List ι} (hcons : Consumed s ids res) :
    Consumed s ids { res with
      allocated := more ++ res.allocated, released := more ++ res.released } := by
  rw [Consumed, ← Multiset.coe_eq_coe] at hcons ⊢
  simp only [← Multiset.coe_add] at hcons ⊢
  calc (s.held : Multiset ι) + ids + (more + res.allocated)
      = s.held + ids + res.allocated + more := by abel
    _ = res.state.held + (more + res.released) + res.taken := by
      rw [hcons]
      abel

/-- The names fit in every run above upper layers that consume. -/
theorem run_fits_of_consuming {forward : Bool} {upper : UpperLayers} {es : List (IpEvent ι)}
    (hupper : upper.Consuming)
    (hrun : runLabels (ipStep forward upper) es ReassLedger.init = some s) : s.Fits := by
  have hinit : (ReassLedger.init : ReassLedger ι).Fits := rfl
  refine runLabels_invariant hinit (fun e t t' ht hstep ↦ ?_) hrun
  cases e with
  | input netifs env inp p =>
    obtain ⟨res, hcall, rfl⟩ := Option.map_eq_some_iff.1 hstep
    exact (ipInput_consumed ht hupper hcall).1
  | tmr =>
    obtain ⟨⟨t'', freed⟩, htmr, rfl⟩ := Option.map_eq_some_iff.1 hstep
    exact (ReassLedger.releases_ipReassTmr ht htmr).fits

/-- **`ip_input` consumes its packet**: in every run, if the upper layers and the interfaces keep to
their contracts, every call releases or passes on each reference exactly once. -/
theorem ipInput_consumes {forward : Bool} {upper : UpperLayers} {netifs : List IpNetif}
    {es : List (IpEvent ι)} (hupper : upper.Consuming) (hfwd : fwd.Borrows)
    (hrun : runLabels (ipStep forward upper) es ReassLedger.init = some s)
    (hcall : ipInputForward ⟨forward, netifs, upper⟩ env fwd inp s p = some res) :
    Consumed s (p.map Prod.fst) res := by
  obtain ⟨r, hinput, rfl⟩ := Option.map_eq_some_iff.1 hcall
  have hcons := (ipInput_consumed (run_fits_of_consuming hupper hrun) hupper hinput).2
  cases hf : r.forwarded with
  | none => exact hcons
  | some q =>
    dsimp only
    rw [ipForward_borrows hfwd]
    exact hcons.borrow

/-! ### A router -/

/-- A second interface, with the address 10.1.0.1. -/
def routerNetif : IpNetif := ⟨⟨1, 0x0100010a, 0x0000ffff, 0, true⟩, true⟩

/-- The router has both. -/
def routerConfig : IpConfig :=
  ⟨true, [hostNetif, routerNetif], ⟨fun _ ↦ false, fun _ ↦ true, fun _ ↦ true⟩⟩

/-- Packets above 24 bytes must be cut into fragments. -/
def routerEnv : ForwardEnv ℕ :=
  ⟨false, false, none, fun _ ↦ 24, fun _ _ ↦ false, none, some [9], [(⟨readHdr fun _ ↦ 0, []⟩, [7, 0])]⟩

/-- A datagram of UDP to 10.1.0.2: its header, and zeros behind it. -/
def transitPacket : List (ℕ × Pbuf) :=
  let front := [0x45, 0, 0, 28, 0, 7, 0, 0, 64, 17]
  let addrs := [10, 0, 0, 1, 10, 1, 0, 2]
  let chksum := inetChksum .two ⟨0, front ++ (storeU16 0 ++ addrs)⟩
  hostPbuf 0 (front ++ (storeU16 chksum ++ (addrs ++ List.replicate 8 0)))

/-- A fragment waits in the queue while a packet is forwarded in fragments. -/
theorem ipInput_consumes_transit : ∃ s, runLabels (ipStep true routerConfig.upper)
      [.input [hostNetif] plainEnv hostNetif (hostPbuf 5 (hostPacket 0x45 28 0x2000 1 20 28))]
      ReassLedger.init = some s ∧ s.held = [5] ∧
    ∃ res, ipInputForward routerConfig plainEnv routerEnv hostNetif s transitPacket = some res ∧
      res.released = [7, 0, 0] ∧ Consumed s [0] res := by
  refine exists_run_of_observe
    (fun s ↦ (s.held,
      (ipInputForward routerConfig plainEnv routerEnv hostNetif s transitPacket).map
        IpResult.released))
    ([5], some [7, 0, 0]) (by decide) fun s hs hobs ↦ ?_
  obtain ⟨hheld, hcall⟩ := Prod.mk.inj hobs
  obtain ⟨res, hcall, hrel⟩ := Option.map_eq_some_iff.1 hcall
  exact ⟨hheld, res, hcall, hrel,
    ipInput_consumes (fun _ ↦ ⟨rfl, rfl⟩) (fun _ _ ↦ rfl) hs hcall⟩

end Lwip.Ipv4
