import LwipPoc.Ipv4.InetChksumChain
import LwipPoc.Ipv4.Input
import Mathlib.Algebra.Order.Group.Multiset
import Mathlib.Tactic.Abel

/-!
# Who releases the packet

`ip_input` gets a reference to every pbuf of its packet, and nobody after it will release them: when it
returns, each must have been released, or be in the reassembly queue. The proof-of-concept build links
stubs for UDP and TCP that do not release what they are given. So **a packet leaks if and only if it
reaches a stub**: it passes all checks, it is for this host, and its protocol, or that of the datagram
it completes, is UDP or TCP (`ipInput_conserves_iff`). All other ways out of `ip_input` release every
reference once.
-/

namespace Lwip.Ipv4

open Lwip.Core

variable {ι : Type*} {cfg : IpConfig} {env : IpEnv ι} {inp : IpNetif} {s s' : ReassLedger ι}
  {p : List (ι × Pbuf)} {q : IpPacket} {ids : List ι} {res : IpResult ι} {dest : Arp.IpAddr}

/-- **No reference is lost, and none released twice**: what was in the queue, the packet, and what was
allocated, is afterwards in the queue or released. -/
def Conserved (s : ReassLedger ι) (ids : List ι) (res : IpResult ι) : Prop :=
  (s.held ++ ids ++ res.allocated).Perm (res.state.held ++ res.released)

/-- The packet, if `ip_input` finds it to be for this host. -/
def routed (cfg : IpConfig) (inp : IpNetif) (q : IpPacket) : Option IpPacket :=
  if Arp.ipAddrIsBroadcast q.hdr.srcAddr inp.toNetif || Arp.ipAddrIsMulticast q.hdr.srcAddr then none
  else (matchNetif cfg inp q.hdr.destAddr).map fun _ ↦ q

/-- The packet behind the checks of its header, trimmed. -/
def checked (env : IpEnv ι) (p : List (ι × Pbuf)) : Option IpPacket :=
  match p with
  | [] => none
  | (_, first) :: rest =>
    let h := readHdr (bytesAt first.payload env.behind)
    if headerChecks h first = true then
      (pbufRealloc h.len (first :: rest.map Prod.snd)).map (trimmed env)
    else none

/-- The packet that `ip_input` finds to be for this host. -/
def forUs (cfg : IpConfig) (env : IpEnv ι) (inp : IpNetif) (p : List (ι × Pbuf)) : Option IpPacket :=
  (checked env p).bind (routed cfg inp)

/-- The packet that the upper layers get to see: a fragment may complete a datagram, or nothing. -/
def arriving (s : Reass) (q : IpPacket) : Option IpPacket :=
  if q.hdr.offset % 2 ^ 14 = 0 then some q else (s.ipReass q).bind Prod.fst

/-- The protocol is one of those with a stub. -/
def Stubbed (q : IpPacket) : Prop := q.hdr.proto = 17 ∨ q.hdr.proto = 6

instance (q : IpPacket) : Decidable (Stubbed q) := inferInstanceAs (Decidable (_ ∨ _))

/-- **The packet reaches a stub**: by itself, or as the last fragment of a datagram. -/
def ReachesStub (cfg : IpConfig) (env : IpEnv ι) (inp : IpNetif) (s : Reass) (p : List (ι × Pbuf)) :
    Prop :=
  ∃ q ∈ forUs cfg env inp p, ∃ r ∈ arriving s q, Stubbed r

instance (cfg : IpConfig) (env : IpEnv ι) (inp : IpNetif) (s : Reass) (p : List (ι × Pbuf)) :
    Decidable (ReachesStub cfg env inp s p) :=
  inferInstanceAs (Decidable (∃ q ∈ forUs cfg env inp p, ∃ r ∈ arriving s q, Stubbed r))

/-! ### The upper layers -/

/-- `icmp_input` releases the packet, and what it allocates. -/
theorem icmpInput_conserves {allocated released : List ι}
    (hcall : icmpInput env inp dest q ids = some (allocated, released)) :
    released.Perm (ids ++ allocated) := by
  obtain ⟨ps, -, hcall⟩ := Option.bind_eq_some_iff.1 hcall
  have hids : some ([], ids) = some (allocated, released) → released.Perm (ids ++ allocated) := by
    intro h
    cases h
    simp
  extract_lets type at hcall
  split_ifs at hcall <;> try exact hids hcall
  split at hcall
  · exact hids hcall
  · cases hcall
    exact List.Perm.refl _

/-- **Above the stubs** a packet is released, if its protocol has no stub; nothing at all happens to it
if it has one. -/
theorem upperInput_stubs (hstubs : cfg.upper = lwipStubs)
    (hcall : upperInput cfg env inp s dest q ids = some res) :
    res.state = s ∧ (¬ Stubbed q → res.released.Perm (ids ++ res.allocated)) ∧
      (Stubbed q → res.released = [] ∧ res.allocated = []) := by
  rw [upperInput, hstubs] at hcall
  simp only [lwipStubs, Bool.false_eq_true, if_false] at hcall
  split_ifs at hcall with hudp htcp hicmp
  · cases hcall
    exact ⟨rfl, fun h ↦ absurd (Or.inl hudp) h, fun _ ↦ ⟨rfl, rfl⟩⟩
  · cases hcall
    exact ⟨rfl, fun h ↦ absurd (Or.inr htcp) h, fun _ ↦ ⟨rfl, rfl⟩⟩
  · obtain ⟨⟨allocated, released⟩, hicmp, heq⟩ := Option.map_eq_some_iff.1 hcall
    cases heq
    exact ⟨rfl, fun _ ↦ icmpInput_conserves hicmp, fun h ↦ absurd h (not_or.2 ⟨hudp, htcp⟩)⟩
  · cases hcall
    exact ⟨rfl, fun _ ↦ List.perm_append_comm, fun h ↦ absurd h (not_or.2 ⟨hudp, htcp⟩)⟩
  · cases hcall
    exact ⟨rfl, fun _ ↦ by simp, fun h ↦ absurd h (not_or.2 ⟨hudp, htcp⟩)⟩

/-- If there are fewer afterwards, one is missing. -/
theorem not_conserved_of_length
    (hlen : res.state.held.length + res.released.length <
      s.held.length + ids.length + res.allocated.length) : ¬ Conserved s ids res := by
  intro hperm
  have := hperm.length_eq
  simp only [List.length_append] at this
  omega

/-- A datagram for this host, which may be a fragment. -/
theorem deliver_conserves_iff (hs : s.Fits) (hids : ids.length = q.pbufs.length) (hne : ids ≠ [])
    (hstubs : cfg.upper = lwipStubs) (hcall : deliver cfg env inp s q ids = some res) :
    res.state.Fits ∧ (Conserved s ids res ↔ ¬ ∃ r ∈ arriving s.reass q, Stubbed r) := by
  have hpos := List.length_pos_of_ne_nil hne
  rw [deliver] at hcall
  by_cases hfrag : q.hdr.offset % 2 ^ 14 = 0
  · rw [if_neg (not_not.2 hfrag)] at hcall
    obtain ⟨hstate, hfree, hkeep⟩ := upperInput_stubs hstubs hcall
    refine ⟨hstate ▸ hs, ?_⟩
    have harr : (∃ r ∈ arriving s.reass q, Stubbed r) ↔ Stubbed q := by
      rw [arriving, if_pos hfrag]
      simp
    rw [harr]
    by_cases hq : Stubbed q
    · obtain ⟨hrel, halloc⟩ := hkeep hq
      refine iff_of_false (not_conserved_of_length ?_) (not_not.2 hq)
      simp only [hstate, hrel, halloc, List.length_nil]
      omega
    · refine iff_of_true ?_ hq
      rw [Conserved, hstate, List.append_assoc]
      exact (hfree hq).symm.append_left _
  · rw [if_pos hfrag] at hcall
    obtain ⟨⟨o, t, freed⟩, hreass, hcall⟩ := Option.bind_eq_some_iff.1 hcall
    have hcons := ReassLedger.ipReass_conserves hs hids hreass
    have harr : arriving s.reass q = o.map Prod.fst := by
      rw [arriving, if_neg hfrag, ← s.ipReass_erase q ids, hreass]
      rfl
    rw [harr]
    cases o with
    | none =>
      cases hcall
      refine ⟨hcons.fits, iff_of_true ?_ (by simp)⟩
      simpa [Conserved] using hcons.perm
    | some r =>
      obtain ⟨r, back⟩ := r
      obtain ⟨res', hupper, rfl⟩ := Option.map_eq_some_iff.1 hcall
      obtain ⟨hstate, hfree, hkeep⟩ := upperInput_stubs hstubs hupper
      have hback := ReassLedger.length_le_of_ipReass hreass
      refine ⟨hstate ▸ hcons.fits, ?_⟩
      have hperm : (s.held ++ ids).Perm (t.held ++ freed ++ back) := hcons.perm
      have hsome : (∃ r' ∈ Option.map Prod.fst (some (r, back)), Stubbed r') ↔ Stubbed r := by simp
      rw [hsome]
      by_cases hr : Stubbed r
      · obtain ⟨hrel, halloc⟩ := hkeep hr
        refine iff_of_false (not_conserved_of_length ?_) (not_not.2 hr)
        have := hperm.length_eq
        simp only [List.length_append] at this
        simp only [hstate, hrel, halloc, List.append_nil, List.length_nil]
        omega
      · refine iff_of_true ?_ hr
        have hrel := hfree hr
        simp only [Conserved, hstate]
        rw [← Multiset.coe_eq_coe] at hperm hrel ⊢
        simp only [← Multiset.coe_add] at hperm hrel ⊢
        rw [hperm, hrel]
        abel

/-! ### `ip_input` -/

/-- What was trimmed is released. -/
theorem conserved_trim {n : ℕ} :
    Conserved s ids { res with released := ids.drop n ++ res.released } ↔
      Conserved s (ids.take n) res := by
  rw [Conserved, Conserved, ← Multiset.coe_eq_coe, ← Multiset.coe_eq_coe]
  simp only [← Multiset.coe_add]
  have hsplit : (ids : Multiset ι) = (ids.take n : Multiset ι) + (ids.drop n : Multiset ι) := by
    rw [Multiset.coe_add, List.take_append_drop]
  rw [hsplit, ← add_left_inj (a := (ids.drop n : Multiset ι)) (b := _ + (ids.take n : Multiset ι) + _)]
  refine iff_of_eq (congrArg₂ Eq ?_ ?_) <;> abel

/-- A packet that is released on the way. -/
theorem conserved_drop (s : ReassLedger ι) (passed : List (Receiver × IpPacket)) (ids : List ι) :
    Conserved s ids ⟨s, passed, [], ids, []⟩ := by
  simp [Conserved]

/-- A packet behind the checks of its header. -/
theorem route_conserves_iff (hs : s.Fits) (hids : ids.length = q.pbufs.length) (hne : ids ≠ [])
    (hstubs : cfg.upper = lwipStubs) (hcall : route cfg env inp s q ids = some res) :
    res.state.Fits ∧ (Conserved s ids res ↔
      ¬ ∃ q' ∈ routed cfg inp q, ∃ r ∈ arriving s.reass q', Stubbed r) := by
  rw [route] at hcall
  by_cases hsrc : (Arp.ipAddrIsBroadcast q.hdr.srcAddr inp.toNetif ||
      Arp.ipAddrIsMulticast q.hdr.srcAddr) = true
  · rw [if_pos hsrc] at hcall
    rw [routed, if_pos hsrc]
    cases hcall
    exact ⟨hs, iff_of_true (conserved_drop _ _ _) (by simp)⟩
  · rw [if_neg hsrc] at hcall
    rw [routed, if_neg hsrc]
    cases hmatch : matchNetif cfg inp q.hdr.destAddr with
    | none =>
      simp only [hmatch] at hcall
      split_ifs at hcall <;> cases hcall <;>
        exact ⟨hs, iff_of_true (conserved_drop _ _ _) (by simp)⟩
    | some netif =>
      simp only [hmatch] at hcall
      simpa using deliver_conserves_iff hs hids hne hstubs hcall

/-- **A call**: nothing is lost, unless a stub is reached. -/
theorem ipInput_conserves (hs : s.Fits) (hstubs : cfg.upper = lwipStubs)
    (hcall : ipInput cfg env inp s p = some res) :
    res.state.Fits ∧
      (Conserved s (p.map Prod.fst) res ↔ ¬ ReachesStub cfg env inp s.reass p) := by
  cases p with
  | nil => cases hcall
  | cons x rest =>
    obtain ⟨i, first⟩ := x
    rw [ipInput] at hcall
    rw [ReachesStub, forUs, checked]
    simp only at hcall ⊢
    by_cases hchecks :
        headerChecks (readHdr (bytesAt first.payload env.behind)) first = true
    · rw [if_pos hchecks] at hcall ⊢
      obtain ⟨ps, hps, hcall⟩ := Option.bind_eq_some_iff.1 hcall
      obtain ⟨res', hroute, rfl⟩ := Option.map_eq_some_iff.1 hcall
      rw [hps, Option.map_some, Option.bind_some, List.map_cons, conserved_trim]
      obtain ⟨hne, hlen⟩ := length_realloc hps (List.cons_ne_nil _ _)
      have hids : ((i :: rest.map Prod.fst).take ps.length).length = ps.length := by
        simpa [List.length_take] using hlen
      have hne' : (i :: rest.map Prod.fst).take ps.length ≠ [] := by
        intro h
        rw [h] at hids
        exact hne (List.length_eq_zero_iff.1 hids.symm)
      exact route_conserves_iff hs hids hne' hstubs hroute
    · rw [if_neg hchecks] at hcall ⊢
      cases hcall
      exact ⟨hs, iff_of_true (conserved_drop _ _ _) (by simp)⟩

/-- The names fit in every reachable state. -/
theorem run_fits {forward : Bool} {es : List (IpEvent ι)}
    (hrun : runLabels (ipStep forward lwipStubs) es ReassLedger.init = some s) : s.Fits := by
  have hinit : (ReassLedger.init : ReassLedger ι).Fits := rfl
  refine runLabels_invariant hinit (fun e t t' ht hstep ↦ ?_) hrun
  cases e with
  | input netifs env inp p =>
    obtain ⟨res, hcall, rfl⟩ := Option.map_eq_some_iff.1 hstep
    exact (ipInput_conserves ht rfl hcall).1
  | tmr =>
    obtain ⟨⟨t'', freed⟩, htmr, rfl⟩ := Option.map_eq_some_iff.1 hstep
    exact (ReassLedger.releases_ipReassTmr ht htmr).fits

/-- **What the stubs lose.** In every run of the build with the stubs, a call conserves the pbufs of its
packet, and those in the queue, if and only if the packet does not reach a stub. -/
theorem ipInput_conserves_iff {forward : Bool} {netifs : List IpNetif} {es : List (IpEvent ι)}
    (hrun : runLabels (ipStep forward lwipStubs) es ReassLedger.init = some s)
    (hcall : ipInput ⟨forward, netifs, lwipStubs⟩ env inp s p = some res) :
    Conserved s (p.map Prod.fst) res ↔
      ¬ ReachesStub ⟨forward, netifs, lwipStubs⟩ env inp s.reass p :=
  (ipInput_conserves (run_fits hrun) rfl hcall).2

/-! ### A host -/

/-- The interface with the address 10.0.0.2. -/
def hostNetif : IpNetif := ⟨⟨0, 0x0200000a, 0x00ffffff, 0, true⟩, true⟩

/-- Zeros behind the packets, and no memory for others. -/
def plainEnv : IpEnv ℕ := ⟨fun _ ↦ 0, fun _ ↦ 0, true, true, none, none⟩

/-- A packet from 10.0.0.1 to this host: its header, with the checksum of its first `n` bytes, and zeros
behind it. -/
def hostPacket (vhl len : BitVec 8) (offset : BitVec 16) (proto : BitVec 8) (n total : ℕ) :
    List (BitVec 8) :=
  let front := [vhl, 0, 0, len, 0, 7, (offset >>> 8).setWidth 8, offset.setWidth 8, 64, proto]
  let addrs := [10, 0, 0, 1, 10, 0, 0, 2]
  let chksum := inetChksum .two ⟨0, (front ++ (storeU16 0 ++ addrs)).take n⟩
  front ++ (storeU16 chksum ++ (addrs ++ List.replicate (total - 20) 0))

/-- The same in one pbuf with a name. -/
def hostPbuf (i : ℕ) (bytes : List (BitVec 8)) : List (ℕ × Pbuf) := [(i, ⟨bytes, bytes.length⟩)]

/-- The configuration of this host. -/
def hostConfig : IpConfig := ⟨false, [hostNetif], lwipStubs⟩

/-- The second of two fragments of an ICMP message. -/
def lastFragment : List (ℕ × Pbuf) := hostPbuf 1 (hostPacket 0x45 24 1 1 20 24)

/-- A datagram in two fragments, which is not for a stub. -/
theorem ipInput_conserves_fragments : ∃ s, runLabels (ipStep false lwipStubs)
      [.input [hostNetif] plainEnv hostNetif (hostPbuf 0 (hostPacket 0x45 28 0x2000 1 20 28)), .tmr]
      ReassLedger.init = some s ∧ s.held = [0] ∧
    ∃ res, ipInput hostConfig plainEnv hostNetif s lastFragment = some res ∧
      res.state.held = [] ∧ Conserved s [1] res := by
  refine exists_run_of_observe
    (fun s ↦ (s.held, decide (ReachesStub hostConfig plainEnv hostNetif s.reass lastFragment),
      (ipInput hostConfig plainEnv hostNetif s lastFragment).map fun res ↦ res.state.held))
    ([0], false, some []) (by decide) fun s hs hobs ↦ ?_
  obtain ⟨hheld, hrest⟩ := Prod.mk.inj hobs
  obtain ⟨hstub, hcall⟩ := Prod.mk.inj hrest
  obtain ⟨res, hcall, hempty⟩ := Option.map_eq_some_iff.1 hcall
  exact ⟨hheld, res, hcall, hempty,
    (ipInput_conserves_iff hs hcall).2 (of_decide_eq_false hstub)⟩

/-- **A UDP datagram is lost**, at the first call. -/
theorem udp_leaks : ∃ res,
    ipInput hostConfig plainEnv hostNetif ReassLedger.init
      (hostPbuf 0 (hostPacket 0x45 28 0 17 20 28)) = some res ∧
    res.state.held = [] ∧ res.released = [] ∧ ¬ Conserved ReassLedger.init [0] res := by
  have hcall : (ipInput hostConfig plainEnv hostNetif ReassLedger.init
      (hostPbuf 0 (hostPacket 0x45 28 0 17 20 28))).map (fun res ↦
        (res.state.held, res.allocated, res.released)) = some ([], [], []) := by
    decide
  obtain ⟨res, hcall, hres⟩ := Option.map_eq_some_iff.1 hcall
  obtain ⟨hheld, hrest⟩ := Prod.mk.inj hres
  obtain ⟨halloc, hrel⟩ := Prod.mk.inj hrest
  refine ⟨res, hcall, hheld, hrel, ?_⟩
  rw [Conserved, hheld, halloc, hrel]
  decide

end Lwip.Ipv4
