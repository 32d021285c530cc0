import LwipPoc.Arch
import LwipPoc.Foundation.Execution
import Mathlib.Logic.Function.Iterate

/-!
# Binding of UDP control blocks

`udp_bind`, `udp_connect`, `udp_disconnect` and `udp_remove` of `core/udp.c`, on the list `udp_pcbs`. A control block
has a number, for where it lies; the list has the numbers in their order.

`udp_bind` tests the other control blocks on the list one by one, and with `SO_REUSE` it passes over every pair of which
**one** has `SOF_REUSEADDR`. So two of them can share a port of which only one allows it (`run_shared`), which is not
what the comment there says. Without such pairs, nothing is shared (`run_exclusive`). There is one more way to
get there: a control block that is bound again, to another address and any port, has the new address and
the old port if there is no port left.
-/

namespace Lwip.Udp

/-- `UDP_LOCAL_PORT_RANGE_START`. -/
def udpLocalPortRangeStart : ℕ := 0xc000

/-- `UDP_LOCAL_PORT_RANGE_END`. -/
def udpLocalPortRangeEnd : ℕ := 0xffff

/-- What binding and connecting use of a `struct udp_pcb`. -/
structure UdpPcb where
  localIp : U32
  localPort : ℕ
  remoteIp : U32
  remotePort : ℕ
  /-- `UDP_FLAGS_CONNECTED`. -/
  connected : Bool
  /-- `SOF_REUSEADDR`. -/
  reuseaddr : Bool
  deriving DecidableEq, Repr

/-- The variables of the module, and the control blocks that there are. -/
structure UdpState where
  udpPort : ℕ
  udpPcbs : List ℕ
  pcb : ℕ → UdpPcb
  /-- What is taken from `MEMP_UDP_PCB`. -/
  live : List ℕ

/-! ### `udp_new_port` -/

/-- The step of `udp_port`. -/
def nextPort (port : ℕ) : ℕ := if port = udpLocalPortRangeEnd then udpLocalPortRangeStart else port + 1

/-- `udp_new_port`, after which `n` more ports may be found in use: the port, or 0, and `udp_port`. -/
def udpNewPort (used : List ℕ) : ℕ → ℕ → ℕ × ℕ
  | 0, port => if nextPort port ∈ used then (0, nextPort port) else (nextPort port, nextPort port)
  | n + 1, port => if nextPort port ∈ used then udpNewPort used n (nextPort port) else (nextPort port, nextPort port)

/-- In the range of local ports. -/
def InRange (port : ℕ) : Prop := udpLocalPortRangeStart ≤ port ∧ port ≤ udpLocalPortRangeEnd

instance (port : ℕ) : Decidable (InRange port) := inferInstanceAs (Decidable (_ ∧ _))

namespace UdpState

/-- A control block is changed. -/
def set (s : UdpState) (p : ℕ) (b : UdpPcb) : UdpState := { s with pcb := Function.update s.pcb p b }

/-- The local ports on the list. -/
def ports (s : UdpState) : List ℕ := s.udpPcbs.map fun a ↦ (s.pcb a).localPort

/-! ### Calls -/

/-- "IP address matches, or one is IP_ADDR_ANY?" -/
def Conflicts (b : UdpPcb) (ip : U32) (port : ℕ) : Prop := b.localPort = port ∧ (b.localIp = 0 ∨ ip = 0 ∨ b.localIp = ip)

instance (b : UdpPcb) (ip : U32) (port : ℕ) : Decidable (Conflicts b ip port) := inferInstanceAs (Decidable (_ ∧ _))

/-- The loop of `udp_bind` over the list: `rebind`, or nothing for `ERR_USE`. A failed assertion is `none`. -/
def bindCheck (soReuse : Bool) (s : UdpState) (p : ℕ) (ip : U32) (port : ℕ) : List ℕ → Bool → Option (Option Bool)
  | [], rebind => some (some rebind)
  | a :: as, rebind =>
    if p = a then
      -- "pcb may occur at most once in active list"
      if rebind = true then none else bindCheck soReuse s p ip port as true
    else if soReuse = false ∨ (s.pcb p).reuseaddr = false ∧ (s.pcb a).reuseaddr = false then
      if Conflicts (s.pcb a) ip port then some none else bindCheck soReuse s p ip port as rebind
    else bindCheck soReuse s p ip port as rebind

/-- The end of `udp_bind`: the port is set, and the control block is on the list. -/
def bound (s : UdpState) (p port : ℕ) (rebind : Bool) : UdpState :=
  let s := s.set p { s.pcb p with localPort := port }
  if rebind = true then s else { s with udpPcbs := p :: s.udpPcbs }

/-- `udp_bind`; `IP_ADDR_ANY` is 0. -/
def udpBind (soReuse : Bool) (s : UdpState) (p : ℕ) (ipaddr : U32) (port : ℕ) : Option (ErrT × UdpState) :=
  (bindCheck soReuse s p ipaddr port s.udpPcbs false).map fun r ↦
    match r with
    | none => (.use, s)
    | some rebind =>
      let s := s.set p { s.pcb p with localIp := ipaddr }
      if port = 0 then
        let r := udpNewPort s.ports (udpLocalPortRangeEnd - udpLocalPortRangeStart) s.udpPort
        let s := { s with udpPort := r.2 }
        if r.1 = 0 then (.use, s) else (.ok, s.bound p r.1 rebind)
      else (.ok, s.bound p port rebind)

/-- The end of `udp_connect`. -/
def connected (s : UdpState) (p : ℕ) (ipaddr : U32) (port : ℕ) : UdpState :=
  let s := s.set p { s.pcb p with remoteIp := ipaddr, remotePort := port, connected := true }
  if p ∈ s.udpPcbs then s else { s with udpPcbs := p :: s.udpPcbs }

/-- `udp_connect`. -/
def udpConnect (soReuse : Bool) (s : UdpState) (p : ℕ) (ipaddr : U32) (port : ℕ) : Option (ErrT × UdpState) :=
  if (s.pcb p).localPort = 0 then
    (udpBind soReuse s p (s.pcb p).localIp (s.pcb p).localPort).map fun r ↦
      if r.1 ≠ .ok then r else (.ok, r.2.connected p ipaddr port)
  else some (.ok, s.connected p ipaddr port)

/-- `udp_disconnect`. -/
def udpDisconnect (s : UdpState) (p : ℕ) : UdpState :=
  s.set p { s.pcb p with remoteIp := 0, remotePort := 0, connected := false }

/-- `udp_remove`. -/
def udpRemove (s : UdpState) (p : ℕ) : UdpState :=
  { s with udpPcbs := s.udpPcbs.erase p, live := s.live.erase p }

/-- `udp_new`, and the option that is set for the new control block. -/
def udpNew (s : UdpState) (p : ℕ) (reuseaddr : Bool) : UdpState :=
  { s.set p ⟨0, 0, 0, 0, false, reuseaddr⟩ with live := p :: s.live }

end UdpState

/-- The calls. The pool has the choice of where a new control block lies. -/
inductive UdpCall
  | new (p : ℕ) (reuseaddr : Bool)
  | bind (p : ℕ) (ipaddr : U32) (port : ℕ)
  | connect (p : ℕ) (ipaddr : U32) (port : ℕ)
  | disconnect (p : ℕ)
  | remove (p : ℕ)
  deriving DecidableEq, Repr

open UdpState

/-- One call, with a control block that exists. -/
def udpStep (soReuse : Bool) : UdpCall → UdpState → Option UdpState
  | .new p reuseaddr, s => if p ∈ s.live then none else some (s.udpNew p reuseaddr)
  | .bind p ipaddr port, s => if p ∈ s.live then (udpBind soReuse s p ipaddr port).map Prod.snd else none
  | .connect p ipaddr port, s => if p ∈ s.live then (udpConnect soReuse s p ipaddr port).map Prod.snd else none
  | .disconnect p, s => if p ∈ s.live then some (s.udpDisconnect p) else none
  | .remove p, s => if p ∈ s.live then some (s.udpRemove p) else none

/-- No control block exists; `udp_init` may start at any port of the range. -/
structure UdpState.Starts (s : UdpState) : Prop where
  udpPcbs : s.udpPcbs = []
  live : s.live = []
  udpPort : InRange s.udpPort

/-- **What binding is to keep**: each control block is on the list at most once, and two of them that share a port and
an address, or of which one has all addresses, both allow it. -/
structure UdpState.Exclusive (soReuse : Bool) (s : UdpState) : Prop where
  nodup : s.udpPcbs.Nodup
  apart : ∀ a ∈ s.udpPcbs, ∀ b ∈ s.udpPcbs, a ≠ b → Conflicts (s.pcb a) (s.pcb b).localIp (s.pcb b).localPort →
    soReuse = true ∧ (s.pcb a).reuseaddr = true ∧ (s.pcb b).reuseaddr = true

/-- **No pair is passed over**: a control block that is in the way has the same option; and one that is bound again to any
port keeps its old one only if there is a port that is free, or the new address is not in the way of another. -/
def Strict (soReuse : Bool) : UdpCall → UdpState → Prop
  | .bind p ipaddr port, s =>
    (soReuse = true → ∀ a ∈ s.udpPcbs, a ≠ p → Conflicts (s.pcb a) ipaddr port →
      (s.pcb a).reuseaddr = (s.pcb p).reuseaddr) ∧
    (port ≠ 0 ∨ p ∉ s.udpPcbs ∨
      (∃ q ∈ List.range' udpLocalPortRangeStart (udpLocalPortRangeEnd - udpLocalPortRangeStart + 1), q ∉ s.ports) ∨
      ∀ a ∈ s.udpPcbs, a ≠ p → Conflicts (s.pcb a) ipaddr (s.pcb p).localPort →
        soReuse = true ∧ (s.pcb a).reuseaddr = true ∧ (s.pcb p).reuseaddr = true)
  | _, _ => True

instance (soReuse : Bool) (c : UdpCall) (s : UdpState) : Decidable (Strict soReuse c s) := by
  unfold Strict
  split <;> infer_instance

/-! ### The search for a port -/

variable {soReuse : Bool} {s s' : UdpState} {p port n : ℕ} {ip : U32} {b : UdpPcb} {used L : List ℕ}

theorem nextPort_cases (port : ℕ) : port = udpLocalPortRangeEnd ∧ nextPort port = udpLocalPortRangeStart ∨
    port ≠ udpLocalPortRangeEnd ∧ nextPort port = port + 1 := by
  rw [nextPort]
  split_ifs with hend
  · exact .inl ⟨hend, rfl⟩
  · exact .inr ⟨hend, rfl⟩

theorem nextPort_inRange (h : InRange port) : InRange (nextPort port) := by
  have hstart : udpLocalPortRangeStart = 49152 := rfl
  have hend : udpLocalPortRangeEnd = 65535 := rfl
  rcases nextPort_cases port with ⟨-, hnext⟩ | ⟨hne, hnext⟩
  · rw [hnext]
    decide
  · rw [InRange] at h ⊢
    omega

attribute [local simp] udpNewPort

/-- A port that is returned is free. -/
theorem udpNewPort_spec (used : List ℕ) (n : ℕ) (h : InRange port) : InRange (udpNewPort used n port).2 ∧
    ((udpNewPort used n port).1 = 0 ∨ (udpNewPort used n port).1 ∉ used ∧ InRange (udpNewPort used n port).1) := by
  induction n generalizing port with
  | zero =>
    have hnext := nextPort_inRange h
    rw [udpNewPort]
    split_ifs with hused
    · exact ⟨hnext, .inl rfl⟩
    · exact ⟨hnext, .inr ⟨hused, hnext⟩⟩
  | succ n ih =>
    have hnext := nextPort_inRange h
    rw [udpNewPort]
    split_ifs with hused
    · exact ih hnext
    · exact ⟨hnext, .inr ⟨hused, hnext⟩⟩

/-- Where no port is returned, all that were looked at are in use. -/
theorem iterate_nextPort_mem (h : InRange port) (hzero : (udpNewPort used n port).1 = 0) {i : ℕ} (hi : i ≤ n) :
    nextPort^[i + 1] port ∈ used := by
  have hne : nextPort port ≠ 0 := by
    have hstart := (nextPort_inRange h).1
    rw [udpLocalPortRangeStart] at hstart
    omega
  induction n generalizing port i with
  | zero =>
    obtain rfl : i = 0 := Nat.le_zero.1 hi
    rw [udpNewPort] at hzero
    split_ifs at hzero with hused
    · exact hused
    · exact absurd hzero hne
  | succ n ih =>
    rw [udpNewPort] at hzero
    split_ifs at hzero with hused
    · rcases i with - | i
      · exact hused
      · have hnext := nextPort_inRange h
        refine ih hnext hzero (Nat.le_of_succ_le_succ hi) ?_
        have hstart := (nextPort_inRange hnext).1
        rw [udpLocalPortRangeStart] at hstart
        omega
    · exact absurd hzero hne

/-- The ports come round. -/
theorem iterate_nextPort (h : InRange port) (i : ℕ) : nextPort^[i] port = udpLocalPortRangeStart +
    (port - udpLocalPortRangeStart + i) % 2 ^ 14 := by
  have hstart : udpLocalPortRangeStart = 49152 := rfl
  have hend : udpLocalPortRangeEnd = 65535 := rfl
  obtain ⟨hle, hge⟩ := h
  induction i with
  | zero =>
    rw [Function.iterate_zero, id]
    omega
  | succ i ih =>
    rw [Function.iterate_succ_apply']
    rcases nextPort_cases (nextPort^[i] port) with ⟨hlast, hnext⟩ | ⟨hne, hnext⟩
    · rw [hnext]
      omega
    · rw [hnext]
      omega

/-- **`udp_new_port` fails** only if every port of the range is in use. -/
theorem mem_of_udpNewPort (h : InRange port)
    (hzero : (udpNewPort used (udpLocalPortRangeEnd - udpLocalPortRangeStart) port).1 = 0) {q : ℕ} (hq : InRange q) :
    q ∈ used := by
  obtain ⟨hstart, hend⟩ := h
  obtain ⟨hqstart, hqend⟩ := hq
  have hmem := iterate_nextPort_mem ⟨hstart, hend⟩ hzero
    (i := (q + udpLocalPortRangeEnd - port) % 2 ^ 14) (Nat.le_of_lt_succ (Nat.mod_lt _ (by decide)))
  rw [iterate_nextPort ⟨hstart, hend⟩] at hmem
  have hlow : udpLocalPortRangeStart = 49152 := rfl
  have hhigh : udpLocalPortRangeEnd = 65535 := rfl
  convert hmem using 1
  omega

/-! ### What a call keeps -/

/-- **The invariant.** What is on the list is bound, and nothing else is. -/
structure UdpState.Inv (soReuse : Bool) (s : UdpState) : Prop extends s.Exclusive soReuse where
  live : s.live.Nodup
  listed : ∀ a ∈ s.udpPcbs, a ∈ s.live
  port : ∀ a ∈ s.live, (s.pcb a).localPort ≠ 0 ↔ a ∈ s.udpPcbs
  udpPort : InRange s.udpPort

theorem UdpState.Conflicts.symm {a b : UdpPcb} (h : Conflicts a b.localIp b.localPort) : Conflicts b a.localIp a.localPort :=
  ⟨h.1.symm, h.2.elim (fun h ↦ .inr (.inl h)) fun h ↦ h.elim .inl fun h ↦ .inr (.inr h.symm)⟩

/-- **One control block is changed**, and may be put on the list. -/
theorem UdpState.Inv.update (h : s.Inv soReuse) (hL : L.Nodup) (hmem : ∀ a, a ≠ p → (a ∈ L ↔ a ∈ s.udpPcbs))
    (hp : p ∈ s.live) (hn : InRange n) (hport : b.localPort ≠ 0 ↔ p ∈ L)
    (hfree : p ∈ L → ∀ a ∈ s.udpPcbs, a ≠ p → Conflicts (s.pcb a) b.localIp b.localPort →
      soReuse = true ∧ (s.pcb a).reuseaddr = true ∧ b.reuseaddr = true) :
    UdpState.Inv soReuse ⟨n, L, Function.update s.pcb p b, s.live⟩ := by
  refine ⟨⟨hL, fun x hx y hy hne hconflict ↦ ?_⟩, h.live, fun x hx ↦ ?_, fun x hx ↦ ?_, hn⟩
  · dsimp only at hconflict ⊢
    rcases eq_or_ne x p with rfl | hxp
    · rw [Function.update_self, Function.update_of_ne hne.symm] at hconflict ⊢
      obtain ⟨hso, hy', hb⟩ := hfree hx y ((hmem y hne.symm).1 hy) hne.symm hconflict.symm
      exact ⟨hso, hb, hy'⟩
    · rw [Function.update_of_ne hxp] at hconflict ⊢
      have hx' := (hmem x hxp).1 hx
      rcases eq_or_ne y p with rfl | hyp
      · rw [Function.update_self] at hconflict ⊢
        exact hfree hy x hx' hxp hconflict
      · rw [Function.update_of_ne hyp] at hconflict ⊢
        exact h.apart x hx' y ((hmem y hyp).1 hy) hne hconflict
  · rcases eq_or_ne x p with rfl | hxp
    · exact hp
    · exact h.listed x ((hmem x hxp).1 hx)
  · dsimp only
    rcases eq_or_ne x p with rfl | hxp
    · rw [Function.update_self]
      exact hport
    · rw [Function.update_of_ne hxp, hmem x hxp]
      exact h.port x hx

/-- What the loop of `udp_bind` finds on a list without duplicates. -/
theorem bindCheck_spec {as : List ℕ} {rebind : Bool} (has : as.Nodup) (hrebind : rebind = true → p ∉ as) :
    bindCheck soReuse s p ip port as rebind ≠ none ∧
      ∀ r, bindCheck soReuse s p ip port as rebind = some (some r) → r = (rebind || decide (p ∈ as)) ∧
        ∀ a ∈ as, a ≠ p → Conflicts (s.pcb a) ip port →
          soReuse = true ∧ ((s.pcb p).reuseaddr = true ∨ (s.pcb a).reuseaddr = true) := by
  induction as generalizing rebind with
  | nil => exact ⟨nofun, fun r hr ↦ ⟨by simpa [bindCheck] using hr.symm, nofun⟩⟩
  | cons a as ih =>
    obtain ⟨ha, hnodup⟩ := List.nodup_cons.1 has
    rw [bindCheck]
    split_ifs with heq hset htest hconflict
    · exact absurd (heq ▸ List.mem_cons_self) (hrebind hset)
    · -- the control block itself
      subst heq
      obtain ⟨hsome, hspec⟩ := ih hnodup fun _ ↦ ha
      refine ⟨hsome, fun r hr ↦ ?_⟩
      obtain ⟨hr', hall⟩ := hspec r hr
      refine ⟨by simp [hr'], fun x hx hne ↦ ?_⟩
      exact hall x ((List.mem_cons.1 hx).resolve_left hne) hne
    · exact ⟨nofun, nofun⟩
    · obtain ⟨hsome, hspec⟩ := ih hnodup fun hset ↦ (List.not_mem_of_not_mem_cons (hrebind hset))
      refine ⟨hsome, fun r hr ↦ ?_⟩
      obtain ⟨hr', hall⟩ := hspec r hr
      refine ⟨by simp [hr', heq], fun x hx hne hx' ↦ ?_⟩
      rcases List.mem_cons.1 hx with rfl | hx
      · exact absurd hx' hconflict
      · exact hall x hx hne hx'
    · -- one of the two has the option
      obtain ⟨hsome, hspec⟩ := ih hnodup fun hset ↦ (List.not_mem_of_not_mem_cons (hrebind hset))
      refine ⟨hsome, fun r hr ↦ ?_⟩
      obtain ⟨hr', hall⟩ := hspec r hr
      refine ⟨by simp [hr', heq], fun x hx hne hx' ↦ ?_⟩
      rcases List.mem_cons.1 hx with rfl | hx
      · simpa [or_iff_not_imp_left] using htest
      · exact hall x hx hne hx'

theorem mem_ports {q : ℕ} : q ∈ s.ports ↔ ∃ a ∈ s.udpPcbs, (s.pcb a).localPort = q := List.mem_map

theorem ports_set (s : UdpState) (p : ℕ) (ip : U32) : (s.set p { s.pcb p with localIp := ip }).ports = s.ports := by
  refine List.map_congr_left fun a _ ↦ ?_
  rw [UdpState.set]
  dsimp only
  rcases eq_or_ne a p with rfl | ha
  · rw [Function.update_self]
  · rw [Function.update_of_ne ha]

/-- The list with a control block, which may be on it. -/
theorem mem_bound (rebind : Bool) (hrebind : rebind = decide (p ∈ s.udpPcbs)) :
    ∃ L, (if rebind = true then s.udpPcbs else p :: s.udpPcbs) = L ∧ p ∈ L ∧ (∀ a, a ≠ p → (a ∈ L ↔ a ∈ s.udpPcbs)) ∧
      (s.udpPcbs.Nodup → L.Nodup) := by
  refine ⟨_, rfl, ?_⟩
  rcases Decidable.em (p ∈ s.udpPcbs) with hp | hp
  · rw [hrebind, if_pos (decide_eq_true hp)]
    exact ⟨hp, fun _ _ ↦ .rfl, id⟩
  · rw [hrebind, if_neg (by simpa using hp)]
    exact ⟨List.mem_cons_self, fun a ha ↦ by simp [ha], fun h ↦ List.nodup_cons.2 ⟨hp, h⟩⟩

/-- **`udp_bind`** keeps the invariant, if it passes over no pair. -/
theorem udpBind_inv {r : ErrT × UdpState} (h : udpBind soReuse s p ip port = some r) (hs : s.Inv soReuse)
    (hp : p ∈ s.live) (hstrict : Strict soReuse (.bind p ip port) s) :
    r.2.Inv soReuse ∧ (r.1 = .ok → (r.2.pcb p).localPort ≠ 0 ∧ p ∈ r.2.live) := by
  obtain ⟨found, hcheck, rfl⟩ := Option.map_eq_some_iff.1 h
  obtain ⟨hsame, hagain⟩ := hstrict
  rcases found with - | rebind
  · exact ⟨hs, nofun⟩
  obtain ⟨hrebind, hpassed⟩ := (bindCheck_spec hs.nodup fun h ↦ absurd h Bool.false_ne_true).2 rebind hcheck
  rw [Bool.false_or] at hrebind
  -- nobody is in the way of the port that was asked for
  have hfree : ∀ a ∈ s.udpPcbs, a ≠ p → Conflicts (s.pcb a) ip port →
      soReuse = true ∧ (s.pcb a).reuseaddr = true ∧ (s.pcb p).reuseaddr = true := by
    intro a ha hne hconflict
    obtain ⟨hso, hone⟩ := hpassed a ha hne hconflict
    have heq := hsame hso a ha hne hconflict
    rcases hone with hone | hone
    · exact ⟨hso, heq.trans hone, hone⟩
    · exact ⟨hso, hone, heq.symm.trans hone⟩
  obtain ⟨L, hL, hpL, hmem, hnodup⟩ := mem_bound rebind hrebind
  -- the control block gets a port, and is on the list
  have hbound : ∀ q n, q ≠ 0 → InRange n → (∀ a ∈ s.udpPcbs, a ≠ p → Conflicts (s.pcb a) ip q →
      soReuse = true ∧ (s.pcb a).reuseaddr = true ∧ (s.pcb p).reuseaddr = true) →
      UdpState.Inv soReuse ⟨n, L, Function.update s.pcb p { s.pcb p with localIp := ip, localPort := q }, s.live⟩ :=
    fun q n hq hn hall ↦ hs.update (hnodup hs.nodup) hmem hp hn (by simp [hq, hpL]) fun _ ↦ hall
  have hset : ∀ q n, bound ⟨n, s.udpPcbs, Function.update s.pcb p { s.pcb p with localIp := ip }, s.live⟩ p q rebind =
      ⟨n, L, Function.update s.pcb p { s.pcb p with localIp := ip, localPort := q }, s.live⟩ := by
    intro q n
    rw [← hL, bound, UdpState.set]
    dsimp only
    rw [Function.update_self, Function.update_idem]
    split_ifs <;> rfl
  dsimp only
  rw [ports_set]
  obtain ⟨hrange, hnew⟩ := udpNewPort_spec s.ports (udpLocalPortRangeEnd - udpLocalPortRangeStart) hs.udpPort
  split_ifs with hport hzero
  · -- no port is left, and the new address is with the old port
    refine ⟨?_, nofun⟩
    have hold : p ∈ s.udpPcbs → ∀ a ∈ s.udpPcbs, a ≠ p → Conflicts (s.pcb a) ip (s.pcb p).localPort →
        soReuse = true ∧ (s.pcb a).reuseaddr = true ∧ (s.pcb p).reuseaddr = true := by
      intro hlisted
      rcases hagain with hport' | hout | ⟨q, hq, hqfree⟩ | hall
      · exact absurd hport hport'
      · exact absurd hlisted hout
      · refine absurd (mem_of_udpNewPort hs.udpPort hzero ?_) hqfree
        obtain ⟨hlow, hhigh⟩ := List.mem_range'_1.1 hq
        exact ⟨hlow, Nat.le_of_lt_succ hhigh⟩
      · exact hall
    exact hs.update hs.nodup (fun _ _ ↦ .rfl) hp hrange (hs.port p hp) hold
  · -- a new port, which nobody has
    obtain ⟨hunused, hinRange⟩ := hnew.resolve_left hzero
    rw [UdpState.set, hset]
    refine ⟨hbound _ _ hzero hrange fun a ha _ hconflict ↦ ?_, fun _ ↦ ⟨?_, hp⟩⟩
    swap
    · dsimp only
      rw [Function.update_self]
      exact hzero
    exact absurd (mem_ports.2 ⟨a, ha, hconflict.1⟩) hunused
  · rw [UdpState.set, hset]
    exact ⟨hbound port s.udpPort hport hs.udpPort hfree, fun _ ↦ ⟨by simpa using hport, hp⟩⟩

/-- The local address and the local port, and the option, are what they were. -/
theorem UdpState.Inv.same (h : s.Inv soReuse) (hp : p ∈ s.live) (hip : b.localIp = (s.pcb p).localIp)
    (hport : b.localPort = (s.pcb p).localPort) (hreuse : b.reuseaddr = (s.pcb p).reuseaddr) : (s.set p b).Inv soReuse := by
  refine h.update h.nodup (fun _ _ ↦ .rfl) hp h.udpPort (hport ▸ h.port p hp) fun hlisted a ha hne hconflict ↦ ?_
  rw [hip, hport] at hconflict
  rw [hreuse]
  exact h.apart a ha p hlisted hne hconflict

/-- **The end of `udp_connect`**: what is bound is on the list already. -/
theorem connected_inv (h : s.Inv soReuse) (hp : p ∈ s.live) (hport : (s.pcb p).localPort ≠ 0) (ip : U32) (n : ℕ) :
    (s.connected p ip n).Inv soReuse := by
  have hset := h.same hp (b := { s.pcb p with remoteIp := ip, remotePort := n, connected := true }) rfl rfl rfl
  have hlisted : s.connected p ip n = s.set p _ := if_pos ((h.port p hp).1 hport)
  rw [hlisted]
  exact hset

theorem udpConnect_inv {r : ErrT × UdpState} (h : udpConnect soReuse s p ip port = some r) (hs : s.Inv soReuse)
    (hp : p ∈ s.live) : r.2.Inv soReuse := by
  rw [udpConnect] at h
  split_ifs at h with hzero
  · obtain ⟨r', hbind, rfl⟩ := Option.map_eq_some_iff.1 h
    -- nobody has the port 0, and a control block that is not bound is not on the list
    have hstrict : Strict soReuse (.bind p (s.pcb p).localIp (s.pcb p).localPort) s := by
      refine ⟨fun _ a ha _ hconflict ↦ ?_, .inr (.inl fun hlisted ↦ ?_)⟩
      · exact absurd (hconflict.1.trans hzero) ((hs.port a (hs.listed a ha)).2 ha)
      · exact absurd hzero ((hs.port p hp).2 hlisted)
    obtain ⟨hinv, hok⟩ := udpBind_inv hbind hs hp hstrict
    split_ifs with herr
    · exact hinv
    · obtain ⟨hport, hlive⟩ := hok (not_not.1 herr)
      exact connected_inv hinv hlive hport ip port
  · cases h
    exact connected_inv hs hp hzero ip port

theorem udpRemove_inv (hs : s.Inv soReuse) : (s.udpRemove p).Inv soReuse := by
  have hsub : ∀ a, a ∈ s.udpPcbs.erase p → a ∈ s.udpPcbs := fun a ↦ List.mem_of_mem_erase
  refine ⟨⟨hs.nodup.erase p, fun a ha b hb ↦ hs.apart a (hsub a ha) b (hsub b hb)⟩, hs.live.erase p, fun a ha ↦ ?_,
    fun a ha ↦ ?_, hs.udpPort⟩
  · obtain ⟨hne, ha⟩ := hs.nodup.mem_erase_iff.1 ha
    exact hs.live.mem_erase_iff.2 ⟨hne, hs.listed a ha⟩
  · obtain ⟨hne, ha⟩ := hs.live.mem_erase_iff.1 ha
    rw [show a ∈ (s.udpRemove p).udpPcbs ↔ _ from hs.nodup.mem_erase_iff, and_iff_right hne]
    exact hs.port a ha

theorem udpNew_inv (hs : s.Inv soReuse) (hp : p ∉ s.live) (reuseaddr : Bool) : (s.udpNew p reuseaddr).Inv soReuse := by
  have hne : ∀ a ∈ s.udpPcbs, a ≠ p := fun a ha heq ↦ hp (heq ▸ hs.listed a ha)
  have hkeep : ∀ a, a ≠ p → (s.udpNew p reuseaddr).pcb a = s.pcb a := fun a ha ↦ Function.update_of_ne ha _ _
  refine ⟨⟨hs.nodup, fun a ha b hb ↦ ?_⟩, List.nodup_cons.2 ⟨hp, hs.live⟩, fun a ha ↦
    List.mem_cons_of_mem p (hs.listed a ha), fun a ha ↦ ?_, hs.udpPort⟩
  · rw [hkeep a (hne a ha), hkeep b (hne b hb)]
    exact hs.apart a ha b hb
  · rcases List.mem_cons.1 ha with rfl | ha
    · rw [show (s.udpNew a reuseaddr).pcb a = _ from Function.update_self _ _ _]
      exact iff_of_false (by simp) fun hlisted ↦ hp (hs.listed a hlisted)
    · rw [hkeep a fun heq ↦ hp (heq ▸ ha)]
      exact hs.port a ha

/-- **One call.** -/
theorem udpStep_inv {c : UdpCall} (h : udpStep soReuse c s = some s') (hs : s.Inv soReuse) (hstrict : Strict soReuse c s) :
    s'.Inv soReuse := by
  rcases c with ⟨p, reuseaddr⟩ | ⟨p, ip, port⟩ | ⟨p, ip, port⟩ | p | p
  case new =>
    obtain ⟨hp, h⟩ := Option.ite_none_left_eq_some.1 h
    exact Option.some.inj h ▸ udpNew_inv hs hp reuseaddr
  case bind =>
    obtain ⟨hp, h⟩ := Option.ite_none_right_eq_some.1 h
    obtain ⟨r, hr, rfl⟩ := Option.map_eq_some_iff.1 h
    exact (udpBind_inv hr hs hp hstrict).1
  case connect =>
    obtain ⟨hp, h⟩ := Option.ite_none_right_eq_some.1 h
    obtain ⟨r, hr, rfl⟩ := Option.map_eq_some_iff.1 h
    exact udpConnect_inv hr hs hp
  case disconnect =>
    obtain ⟨hp, h⟩ := Option.ite_none_right_eq_some.1 h
    exact Option.some.inj h ▸ hs.same hp rfl rfl rfl
  case remove =>
    obtain ⟨hp, h⟩ := Option.ite_none_right_eq_some.1 h
    exact Option.some.inj h ▸ udpRemove_inv hs

/-! ### Whole runs -/

variable {s₀ : UdpState} {cs : List UdpCall}

theorem UdpState.Starts.inv (h : s₀.Starts) : s₀.Inv soReuse := by
  refine ⟨⟨?_, fun a ha ↦ ?_⟩, ?_, fun a ha ↦ ?_, fun a ha ↦ ?_, h.udpPort⟩
  · rw [h.udpPcbs]
    exact List.nodup_nil
  · rw [h.udpPcbs] at ha
    cases ha
  · rw [h.live]
    exact List.nodup_nil
  · rw [h.udpPcbs] at ha
    cases ha
  · rw [h.live] at ha
    cases ha

/-- **A port is not shared** unless both of the control blocks allow it, in every state of every run whose calls of
`udp_bind` pass over no pair. -/
theorem run_exclusive (hs₀ : s₀.Starts) (h : runLabels (guardStep (Strict soReuse) (udpStep soReuse)) cs s₀ = some s) :
    s.Exclusive soReuse := by
  have hinv : s.Inv soReuse := by
    refine runLabels_invariant (I := fun s : UdpState ↦ s.Inv soReuse) hs₀.inv (fun c s s' hs hc ↦ ?_) h
    obtain ⟨hstrict, hc⟩ := guardStep_eq_some.1 hc
    exact udpStep_inv hc hs hstrict
  exact hinv.toExclusive

/-- As `udp_init` leaves the module, without random ports. -/
def udpInitial : UdpState := ⟨udpLocalPortRangeStart, [], fun _ ↦ ⟨0, 0, 0, 0, false, false⟩, []⟩

theorem udpInitial_starts : udpInitial.Starts := ⟨rfl, rfl, by decide⟩

/-- Two that may share a port, one that is connected, and the first of them is bound again. -/
theorem run_exclusive_reuse : ∃ s, runLabels (guardStep (Strict true) (udpStep true))
      [.new 1 true, .new 2 true, .new 3 false, .bind 1 0 5000, .bind 2 0x0100000a 5000, .connect 3 0x0200000a 53,
        .bind 1 0 0, .remove 2] udpInitial = some s ∧
    s.udpPcbs = [3, 1] ∧ s.Exclusive true := by
  exact exists_run_of_observe (fun s ↦ s.udpPcbs) [3, 1] (by decide) fun s hrun hobs ↦
    ⟨hobs, run_exclusive udpInitial_starts hrun⟩

/-- **One of them allows it**, and the other does not. -/
theorem run_shared : ∃ s, runLabels (udpStep true) [.new 1 true, .new 2 false, .bind 1 0 5000, .bind 2 0 5000] udpInitial =
      some s ∧ udpInitial.Starts ∧ ¬s.Exclusive true := by
  refine exists_run_of_observe (fun s ↦ (s.udpPcbs, s.pcb 1, s.pcb 2))
    ([2, 1], ⟨0, 5000, 0, 0, false, true⟩, ⟨0, 5000, 0, 0, false, false⟩) (by decide)
    fun s _ hobs ↦ ⟨udpInitial_starts, fun hs ↦ ?_⟩
  obtain ⟨hlist, hpcbs⟩ := Prod.mk.inj hobs
  obtain ⟨hone, htwo⟩ := Prod.mk.inj hpcbs
  have happart := hs.apart 1 (by rw [hlist]; decide) 2 (by rw [hlist]; decide) (by decide) (by rw [hone, htwo]; decide)
  rw [htwo] at happart
  exact absurd happart.2.2 (by decide)

end Lwip.Udp
