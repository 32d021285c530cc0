import LwipPoc.Core.Dhcp.ClientTimers
import LwipPoc.Foundation.History

/-!
# What a client does

In every run, whatever comes in and whatever fails:

* the replies that a client takes are replies to the last message that it has sent;
* an address that it queries was acknowledged by a server just before;
* an address that it gives to its interface was acknowledged and then queried twice, or an earlier reply named it and an
  acknowledgement came just before;
* a message that releases an address is not sent to a server.

Together this is `dhcp_client_history`. That an acknowledgement of a lease in use may name another address is not seen.
-/

namespace Lwip.Core.Dhcp

/-- The last message of a history has a transaction id. -/
def Asked (l : List DhcpAct) (xid : BitVec 32) : Prop :=
  ∃ l₀ m dst l₁, l = l₀ ++ .sent m dst :: l₁ ∧ m.xid = xid ∧ ∀ m dst, .sent m dst ∉ l₁

/-- The last reply has acknowledged an address, which has been queried a number of times since. -/
def Probed (n : ℕ) (l : List DhcpAct) (addr : BitVec 32) : Prop :=
  ∃ l₀ xid, l = l₀ ++ .took dhcpAckMsg xid addr :: List.replicate n (.queried addr)

/-- A reply has named an address. -/
def Named (l : List DhcpAct) (addr : BitVec 32) : Prop := ∃ msgType xid, .took msgType xid addr ∈ l

/-- A server has just acknowledged the lease of an address that a reply has named. -/
def Confirmed (l : List DhcpAct) (addr : BitVec 32) : Prop :=
  ∃ l₀ xid yiaddr, l = l₀ ++ [.took dhcpAckMsg xid yiaddr] ∧ Named l₀ addr

/-- What a client may do. -/
def Allowed : List DhcpAct → DhcpAct → Prop
  | _, .sent m dst => m.messageType = dhcpReleaseMsg → dst = 0
  | l, .queried addr => Probed 0 l addr ∨ Probed 1 l addr
  | l, .took _ xid _ => Asked l xid
  | l, .ipaddr addr => addr = 0 ∨ Probed 2 l addr ∨ Confirmed l addr

theorem Asked.concat {l : List DhcpAct} {xid : BitVec 32} (h : Asked l xid) {a : DhcpAct} (ha : ∀ m dst, a ≠ .sent m dst) :
    Asked (l ++ [a]) xid := by
  obtain ⟨l₀, m, dst, l₁, rfl, hxid, hl₁⟩ := h
  refine ⟨l₀, m, dst, l₁ ++ [a], by simp, hxid, fun m dst hmem ↦ ?_⟩
  rw [List.mem_append, List.mem_singleton] at hmem
  exact hmem.elim (hl₁ m dst) fun h ↦ ha m dst h.symm

theorem Named.concat {l : List DhcpAct} {addr : BitVec 32} (h : Named l addr) (a : DhcpAct) : Named (l ++ [a]) addr := by
  obtain ⟨msgType, xid, hmem⟩ := h
  exact ⟨msgType, xid, List.mem_append_left _ hmem⟩

theorem Probed.concat {n : ℕ} {l : List DhcpAct} {addr : BitVec 32} (h : Probed n l addr) :
    Probed (n + 1) (l ++ [.queried addr]) addr := by
  obtain ⟨l₀, xid, rfl⟩ := h
  exact ⟨l₀, xid, by rw [List.append_assoc, List.cons_append, ← List.replicate_succ']⟩

namespace Client

variable {a₀ : BitVec 32} {c c' : Client}

/-- What holds of a client that was started on an interface with the address `a₀`. -/
structure Recorded (a₀ : BitVec 32) (c : Client) : Prop where
  acts : LawfulHistory Allowed c.acts
  asked : c.pcb = true → Asked c.acts c.xid
  offered : c.offeredIpAddr = 0 ∨ Named c.acts c.offeredIpAddr
  ipAddr : c.ipAddr = a₀ ∨ .ipaddr c.ipAddr ∈ c.acts

theorem Recorded.of_eq (h : c.Recorded a₀) (hacts : c'.acts = c.acts)
    (hpcb : c'.pcb = true → c.pcb = true ∧ c'.xid = c.xid) (hoffered : c'.offeredIpAddr = c.offeredIpAddr ∨ c'.offeredIpAddr = 0)
    (hip : c'.ipAddr = c.ipAddr) : c'.Recorded a₀ := by
  refine ⟨hacts ▸ h.acts, fun hp ↦ ?_, ?_, ?_⟩
  · rw [hacts, (hpcb hp).2]
    exact h.asked (hpcb hp).1
  · rw [hacts]
    rcases hoffered with hoffered | hoffered
    · exact hoffered ▸ h.offered
    · exact .inl hoffered
  · rw [hacts, hip]
    exact h.ipAddr

/-! ### The parts of a call -/

/-- One more act, and nothing else that is looked at. -/
theorem Recorded.concat (h : c.Recorded a₀) {a : DhcpAct} (ha : Allowed c.acts a) (hacts : c'.acts = c.acts ++ [a])
    (hasked : c'.pcb = true → Asked c'.acts c'.xid) (hoffered : c'.offeredIpAddr = c.offeredIpAddr)
    (hip : c'.ipAddr = c.ipAddr) : c'.Recorded a₀ := by
  refine ⟨hacts ▸ h.acts.concat ha, hasked, ?_, ?_⟩
  · rw [hacts, hoffered]
    exact h.offered.imp_right fun hnamed ↦ hnamed.concat a
  · rw [hacts, hip]
    exact h.ipAddr.imp_right fun hmem ↦ List.mem_append_left _ hmem

theorem Recorded.dhcpSetState (h : c.Recorded a₀) (s : DhcpState) : (c.dhcpSetState s).Recorded a₀ := by
  rw [Client.dhcpSetState]
  split_ifs
  · exact h.of_eq rfl (fun hp ↦ ⟨hp, rfl⟩) (.inl rfl) rfl
  · exact h

theorem Recorded.dhcpRetry (h : c.Recorded a₀) (msecs : ℕ → ℕ) : (c.dhcpRetry msecs).Recorded a₀ :=
  h.of_eq rfl (fun hp ↦ ⟨hp, rfl⟩) (.inl rfl) rfl

/-- A message that is sent is the last one. -/
theorem Recorded.dhcpSend_true (h : ({ c with pcb := false } : Client).Recorded a₀) (messageType : BitVec 8)
    (options : List (BitVec 8)) (dst : BitVec 32) (hdst : messageType = dhcpReleaseMsg → dst = 0) :
    (c.dhcpSend true messageType options dst).Recorded a₀ := by
  obtain ⟨m, hsent, hm⟩ : ∃ m : DhcpMsg, c.dhcpSend true messageType options dst =
      { c with lastXid := m.xid, xid := m.xid, acts := c.acts ++ [.sent m dst] } ∧ m.messageType = messageType := by
    rw [Client.dhcpSend, if_pos rfl]
    exact ⟨{ messageType := messageType, xid := _, ciaddr := _, chaddr := _, options := _ }, rfl, rfl⟩
  rw [hsent]
  refine h.concat (a := .sent m dst) (fun hrel ↦ hdst (hm.symm.trans hrel)) rfl (fun _ ↦ ?_) rfl rfl
  exact ⟨c.acts, m, dst, [], rfl, rfl, fun _ _ hmem ↦ absurd hmem List.not_mem_nil⟩

theorem Recorded.dhcpSend (h : c.Recorded a₀) (mem : Bool) (messageType : BitVec 8) (options : List (BitVec 8))
    (dst : BitVec 32) (hdst : messageType = dhcpReleaseMsg → dst = 0) :
    (c.dhcpSend mem messageType options dst).Recorded a₀ := by
  cases mem with
  | false => exact h
  | true => exact .dhcpSend_true (h.of_eq rfl (fun hp ↦ absurd hp Bool.false_ne_true) (.inl rfl) rfl) _ _ _ hdst

/-- A call that waits for an answer. -/
theorem Recorded.request (h : c.Recorded a₀) (s : DhcpState) (mem : Bool) {messageType : BitVec 8}
    (hmsg : messageType ≠ dhcpReleaseMsg) (options : List (BitVec 8)) (dst : BitVec 32) (msecs : ℕ → ℕ) :
    (((c.dhcpSetState s).dhcpSend mem messageType options dst).dhcpRetry msecs).Recorded a₀ :=
  ((h.dhcpSetState s).dhcpSend mem _ _ _ fun hrel ↦ absurd hrel hmsg).dhcpRetry msecs

theorem Recorded.netifSetAddr (h : c.Recorded a₀) {addr : BitVec 32} (netmask gw : BitVec 32)
    (haddr : Allowed c.acts (.ipaddr addr)) : (c.netifSetAddr addr netmask gw).Recorded a₀ := by
  refine ⟨h.acts.concat haddr, fun hp ↦ ?_, h.offered.imp_right fun hnamed ↦ hnamed.concat _, .inr ?_⟩
  · exact (h.asked hp).concat fun _ _ ↦ DhcpAct.noConfusion
  · simp [Client.netifSetAddr]

/-! ### Calls -/

theorem Recorded.dhcpDiscover (h : c.Recorded a₀) (mem : Bool) : (c.dhcpDiscover mem).Recorded a₀ :=
  (h.of_eq rfl (fun hp ↦ ⟨hp, rfl⟩) (.inr rfl) rfl : Recorded a₀ { c with offeredIpAddr := 0 }).request .selecting mem
    (by decide) _ _ _

theorem Recorded.dhcpRelease (h : c.Recorded a₀) (mem : Bool) : (c.dhcpRelease mem).Recorded a₀ := by
  have hclear : ({ c.dhcpSetState .off with
      serverIpAddr := 0, offeredIpAddr := 0, offeredSnMask := 0, offeredGwAddr := 0
      offeredT0Lease := 0, offeredT1Renew := 0, offeredT2Rebind := 0 } : Client).Recorded a₀ :=
    (h.dhcpSetState .off).of_eq rfl (fun hp ↦ ⟨hp, rfl⟩) (.inr rfl) rfl
  have hsent := (hclear.dhcpSend mem dhcpReleaseMsg [] 0 fun _ ↦ rfl).dhcpRetry rebindMsecs
  rw [Client.dhcpRelease]
  refine Recorded.netifSetAddr ?_ _ _ (.inl rfl)
  exact hsent.of_eq rfl (fun hp ↦ ⟨hp, rfl⟩) (.inl rfl) rfl

theorem Recorded.dhcpBind (h : c.Recorded a₀) (haddr : Allowed c.acts (.ipaddr c.offeredIpAddr)) : c.dhcpBind.Recorded a₀ := by
  rw [Client.dhcpBind]
  refine Recorded.dhcpSetState ?_ .bound
  refine ⟨h.acts.concat haddr, fun hp ↦ ?_, h.offered.imp_right fun hnamed ↦ hnamed.concat _, .inr ?_⟩
  · exact (h.asked hp).concat fun _ _ ↦ DhcpAct.noConfusion
  · simp [Client.netifSetAddr]

theorem Recorded.dhcpHandleNak (h : c.Recorded a₀) (mem : Bool) : (c.dhcpHandleNak mem).Recorded a₀ := by
  have hdown : c.netifSetDown.Recorded a₀ := h.of_eq rfl (fun hp ↦ ⟨hp, rfl⟩) (.inl rfl) rfl
  exact ((hdown.netifSetAddr _ _ (.inl rfl)).dhcpSetState .backingOff).dhcpDiscover mem

theorem dhcpSetState_eq (c : Client) (s : DhcpState) : (c.dhcpSetState s).acts = c.acts ∧
    (c.dhcpSetState s).offeredIpAddr = c.offeredIpAddr ∧ (c.dhcpSetState s).ipAddr = c.ipAddr := by
  rw [Client.dhcpSetState]
  split_ifs <;> exact ⟨rfl, rfl, rfl⟩

/-- A client that is started has a pcb, and has not sent anything through it. -/
theorem Recorded.started (h : ({ c with pcb := false } : Client).Recorded a₀) :
    (c.dhcpDiscover true).Recorded a₀ ∧ ({ c.dhcpDiscover false with pcb := false } : Client).Recorded a₀ := by
  obtain ⟨hacts, hoffered, hip⟩ := dhcpSetState_eq { c with offeredIpAddr := 0 } .selecting
  have hselecting :
      ({ ({ c with offeredIpAddr := 0 } : Client).dhcpSetState .selecting with pcb := false } : Client).Recorded a₀ :=
    h.of_eq hacts (fun hp ↦ absurd hp Bool.false_ne_true) (.inr hoffered) hip
  refine ⟨(Recorded.dhcpSend_true hselecting _ _ _ fun hrel ↦ absurd hrel (by decide)).dhcpRetry _, ?_⟩
  exact hselecting.of_eq rfl (fun hp ↦ absurd hp Bool.false_ne_true) (.inl rfl) rfl

/-! ### Steps -/

/-- While the address is checked, it has been queried as often as the tries count. -/
structure Sound (a₀ : BitVec 32) (c : Client) : Prop extends Recorded a₀ c where
  probed : c.state = .checking → Probed c.tries c.acts c.offeredIpAddr ∧ c.tries ≤ 2

theorem Recorded.sound (h : c.Recorded a₀) {s : DhcpState} (hstate : c.state = s) (hs : s ≠ .checking) : c.Sound a₀ :=
  ⟨h, fun hc ↦ absurd (hstate.symm.trans hc) hs⟩

theorem Sound.of_eq (h : c.Sound a₀) (hacts : c'.acts = c.acts) (hpcb : c'.pcb = c.pcb) (hxid : c'.xid = c.xid)
    (hoffered : c'.offeredIpAddr = c.offeredIpAddr) (hip : c'.ipAddr = c.ipAddr) (hstate : c'.state = c.state)
    (htries : c'.tries = c.tries) : c'.Sound a₀ := by
  refine ⟨h.toRecorded.of_eq hacts (fun hp ↦ ⟨hpcb ▸ hp, hxid⟩) (.inl hoffered) hip, fun hc ↦ ?_⟩
  rw [hacts, hoffered, htries]
  exact h.probed (hstate ▸ hc)

theorem Recorded.call (h : c.Recorded a₀) (s : DhcpState) (hs : s ≠ .checking) (mem : Bool) {messageType : BitVec 8}
    (hmsg : messageType ≠ dhcpReleaseMsg) (options : List (BitVec 8)) (dst : BitVec 32) (msecs : ℕ → ℕ) :
    (((c.dhcpSetState s).dhcpSend mem messageType options dst).dhcpRetry msecs).Sound a₀ :=
  (h.request s mem hmsg options dst msecs).sound ((dhcpSend_state _ _ _ _).trans (dhcpSetState_state c s)) hs

theorem Recorded.sound_dhcpDiscover (h : c.Recorded a₀) (mem : Bool) : (c.dhcpDiscover mem).Sound a₀ :=
  (h.dhcpDiscover mem).sound (dhcpDiscover_state mem) (by decide)

/-- An address is queried once more. -/
theorem Recorded.dhcpCheck (h : c.Recorded a₀) {n : ℕ} (hn : (c.dhcpSetState .checking).tries = n) (hle : n ≤ 1)
    (hprobed : Probed n c.acts c.offeredIpAddr) : c.dhcpCheck.Sound a₀ := by
  obtain ⟨hacts, hoffered, -⟩ := dhcpSetState_eq c .checking
  have hallowed : Allowed (c.dhcpSetState .checking).acts (.queried (c.dhcpSetState .checking).offeredIpAddr) := by
    rw [hacts, hoffered]
    rcases Nat.le_one_iff_eq_zero_or_eq_one.1 hle with rfl | rfl
    · exact .inl hprobed
    · exact .inr hprobed
  have hchecking := h.dhcpSetState .checking
  refine ⟨hchecking.concat hallowed rfl (fun hp ↦ ?_) rfl rfl, fun _ ↦ ?_⟩
  · exact (hchecking.asked hp).concat fun _ _ ↦ DhcpAct.noConfusion
  · have htries : c.dhcpCheck.tries = n + 1 := by
      show ((c.dhcpSetState .checking).tries + 1) % 2 ^ 8 = n + 1
      omega
    rw [htries]
    refine ⟨?_, by omega⟩
    show Probed (n + 1) ((c.dhcpSetState .checking).acts ++ [.queried (c.dhcpSetState .checking).offeredIpAddr])
      (c.dhcpSetState .checking).offeredIpAddr
    rw [hacts, hoffered]
    exact hprobed.concat

theorem Sound.dhcpTimeout (h : c.Sound a₀) (mem mem' : Bool) : (c.dhcpTimeout mem mem').Sound a₀ := by
  have hrec := h.toRecorded
  rw [Client.dhcpTimeout]
  split
  next => exact hrec.sound_dhcpDiscover mem
  next => exact hrec.sound_dhcpDiscover mem
  next =>
    split_ifs
    · exact hrec.call .requesting (by decide) mem (by decide) _ _ _
    · exact (hrec.dhcpRelease mem).sound_dhcpDiscover mem'
  next hchecking =>
    obtain ⟨hprobed, hle⟩ := h.probed hchecking
    split_ifs with hfew
    · exact hrec.dhcpCheck (by rw [← hchecking, dhcpSetState_self]) hfew hprobed
    · have htwo : c.tries = 2 := by omega
      rw [htwo] at hprobed
      exact (hrec.dhcpBind (.inr (.inl hprobed))).sound dhcpBind_state (by decide)
  next => exact hrec.call .renewing (by decide) mem (by decide) _ _ _
  next =>
    split_ifs
    · exact hrec.call .rebinding (by decide) mem (by decide) _ _ _
    · exact (hrec.dhcpRelease mem).sound_dhcpDiscover mem'
  next =>
    split_ifs
    · exact hrec.call .rebooting (by decide) mem (by decide) _ _ _
    · exact hrec.sound_dhcpDiscover mem
  next => exact h
  next => exact h

/-- The reply that is taken is one to the last message. -/
theorem Recorded.take (h : c.Recorded a₀) (hp : c.pcb = true) (msgType : BitVec 8) (yiaddr : BitVec 32) :
    (c.take msgType yiaddr).Recorded a₀ :=
  h.concat (a := .took msgType c.xid yiaddr) (h.asked hp) rfl (fun _ ↦ (h.asked hp).concat fun _ _ ↦ DhcpAct.noConfusion) rfl rfl

theorem named_take (c : Client) (msgType : BitVec 8) (yiaddr : BitVec 32) : Named (c.take msgType yiaddr).acts yiaddr :=
  ⟨msgType, c.xid, List.mem_append_right _ (List.mem_singleton_self _)⟩

/-- The address of a client may be one that a reply has named. -/
theorem Recorded.offer (h : c.Recorded a₀) {yiaddr : BitVec 32} (hnamed : Named c.acts yiaddr) (hacts : c'.acts = c.acts)
    (hpcb : c'.pcb = c.pcb) (hxid : c'.xid = c.xid) (hoffered : c'.offeredIpAddr = yiaddr) (hip : c'.ipAddr = c.ipAddr) :
    c'.Recorded a₀ :=
  ⟨hacts ▸ h.acts, fun hp ↦ by rw [hacts, hxid]; exact h.asked (hpcb ▸ hp), .inr (by rw [hacts, hoffered]; exact hnamed),
    by rw [hacts, hip]; exact h.ipAddr⟩

/-- An acknowledgement for a lease in use. -/
theorem Recorded.rebind (h : c.Recorded a₀) (hp : c.pcb = true) (yiaddr : BitVec 32) :
    (c.take dhcpAckMsg yiaddr).dhcpBind.Sound a₀ := by
  refine ((h.take hp dhcpAckMsg yiaddr).dhcpBind ?_).sound dhcpBind_state (by decide)
  rcases h.offered with hzero | hnamed
  · exact .inl hzero
  · exact .inr (.inr ⟨c.acts, c.xid, yiaddr, rfl, hnamed⟩)

theorem Sound.dhcpHandle (h : c.Sound a₀) (hp : c.pcb = true) (mem : Bool) (yiaddr : BitVec 32) :
    (c.dhcpHandle mem yiaddr).Sound a₀ := by
  have htake (t : BitVec 8) := h.toRecorded.take hp t yiaddr
  rw [Client.dhcpHandle]
  dsimp only
  split_ifs with hgiven hack hnak hoffer
  · rw [hack]
    split
    next hstate =>
      have hoffered : ((c.take dhcpAckMsg yiaddr).dhcpHandleAck yiaddr).Recorded a₀ :=
        (htake _).offer (named_take c _ _) rfl rfl rfl rfl rfl
      refine hoffered.dhcpCheck (dhcpSetState_tries _ _ ?_) (Nat.zero_le 1) ⟨c.acts, c.xid, rfl⟩
      show DhcpState.checking ≠ c.state
      simp [hstate]
    next => exact h.toRecorded.rebind hp yiaddr
    next => exact h.toRecorded.rebind hp yiaddr
    next => exact h.toRecorded.rebind hp yiaddr
    next => exact h
  · exact ((htake _).dhcpHandleNak mem).sound (dhcpDiscover_state mem) (by decide)
  · rw [dhcpHandleOffer]
    split_ifs
    · have hoffered (server : BitVec 32) (timeout : ℕ) : ({ c.take ((c.rx.val dhcpOptionIdxMsgType).setWidth 8) yiaddr with
          requestTimeout := timeout, serverIpAddr := server, offeredIpAddr := yiaddr } : Client).Recorded a₀ :=
        (htake _).offer (named_take c _ _) rfl rfl rfl rfl rfl
      exact (hoffered _ _).call .requesting (by decide) mem (by decide) _ _ _
    · refine Recorded.sound ?_ hoffer.2 (by decide)
      exact (htake _).of_eq rfl (fun hp ↦ ⟨hp, rfl⟩) (.inl rfl) rfl
  · exact h
  · exact h

/-- The pcb of a client that is stopped is given back. -/
theorem Recorded.stopped (h : ({ c with pcb := false } : Client).Recorded a₀) (hattached : c.attached = true) :
    c.dhcpStop.Sound a₀ := by
  rw [Client.dhcpStop]
  dsimp only
  rw [if_pos hattached]
  refine (Recorded.dhcpSetState ?_ .off).sound (dhcpSetState_state _ _) (by decide)
  exact h.of_eq rfl (fun hp ↦ ⟨hp, rfl⟩) (.inl rfl) rfl

theorem Sound.dhcpStop (h : c.Sound a₀) : c.dhcpStop.Sound a₀ := by
  cases hattached : c.attached with
  | true =>
    refine Recorded.stopped ?_ hattached
    exact h.toRecorded.of_eq rfl (fun hp ↦ absurd hp Bool.false_ne_true) (.inl rfl) rfl
  | false =>
    rw [Client.dhcpStop]
    dsimp only
    rw [hattached, if_neg Bool.false_ne_true]
    exact h.of_eq rfl rfl rfl rfl rfl rfl rfl

theorem Sound.dhcpStart (h : c.Sound a₀) (memDhcp memPcb mem : Bool) : (c.dhcpStart memDhcp memPcb mem).2.Sound a₀ := by
  have hclear : ({ c with flagDhcp := false, attached := true } : Client).dhcpClear.Recorded a₀ :=
    h.toRecorded.of_eq rfl (fun hp ↦ absurd hp Bool.false_ne_true) (.inr rfl) rfl
  obtain ⟨hsent, hfailed⟩ := Recorded.started
    (c := { ({ c with flagDhcp := false, attached := true } : Client).dhcpClear with pcb := true }) hclear
  rw [Client.dhcpStart]
  dsimp only
  split_ifs with _ _ _ _ hmem
  · exact h.of_eq rfl rfl rfl rfl rfl rfl rfl
  · exact h.of_eq rfl rfl rfl rfl rfl rfl rfl
  · exact h.of_eq rfl rfl rfl rfl rfl rfl rfl
  · exact hclear.sound (s := .off) rfl (by decide)
  · rw [hmem]
    refine Recorded.stopped hfailed ?_
    exact (dhcpSend_attached _ _ _ _).trans (dhcpSetState_attached _ _)
  · rw [eq_true_of_ne_false hmem]
    exact (hsent.sound (dhcpDiscover_state true) (by decide)).of_eq rfl rfl rfl rfl rfl rfl rfl

theorem Sound.dhcpCoarseTmr (h : c.Sound a₀) (mem : Bool) : (c.dhcpCoarseTmr mem).Sound a₀ := by
  have hrec (t1 t2 : ℕ) : ({ c with t1Timeout := t1, t2Timeout := t2 } : Client).Sound a₀ :=
    h.of_eq rfl rfl rfl rfl rfl rfl rfl
  rw [Client.dhcpCoarseTmr]
  dsimp only
  split_ifs
  · exact (hrec _ _).toRecorded.call .rebinding (by decide) mem (by decide) _ _ _
  · exact hrec _ _
  · exact (hrec _ _).toRecorded.call .renewing (by decide) mem (by decide) _ _ _
  · exact hrec _ _
  · exact hrec _ _
  · exact h

theorem Sound.dhcpNetworkChanged (h : c.Sound a₀) (mem : Bool) : (c.dhcpNetworkChanged mem).Sound a₀ := by
  have hdown : ({ c.netifSetDown with tries := 0 } : Client).Recorded a₀ :=
    h.toRecorded.of_eq rfl (fun hp ↦ ⟨hp, rfl⟩) (.inl rfl) rfl
  have hreboot := hdown.call .rebooting (by decide) mem (by decide : dhcpRequestMsg ≠ dhcpReleaseMsg)
    (maxMsgSize dhcpMaxMsgLenMinRequired ++ requestedIp c.offeredIpAddr) ipAddrBroadcast rebindMsecs
  rw [Client.dhcpNetworkChanged]
  split_ifs
  · split
    · exact hreboot
    · exact hreboot
    · exact hreboot
    · exact hreboot
    · exact h
    · refine Recorded.sound_dhcpDiscover ?_ mem
      exact h.toRecorded.of_eq rfl (fun hp ↦ ⟨hp, rfl⟩) (.inl rfl) rfl
  · exact h

theorem Sound.dhcpRecv (h : c.Sound a₀) (hp : c.pcb = true) {behind : List Pbuf → ℕ → BitVec 8} {fuel : ℕ} {mem : Bool}
    {p : List Pbuf} (hc : c.dhcpRecv behind fuel mem p = some c') : c'.Sound a₀ := by
  have hrx (rx : RxOptions) : ({ c with rx := rx } : Client).Sound a₀ := h.of_eq rfl rfl rfl rfl rfl rfl rfl
  rw [Client.dhcpRecv] at hc
  split_ifs at hc
  · split at hc
    next rx _ _ =>
      cases hc
      exact (hrx rx).dhcpHandle hp mem _
    next rx _ _ _ =>
      cases hc
      exact hrx rx
    all_goals cases hc
  · cases hc
    exact h

theorem Sound.step (h : c.Sound a₀) {e : DhcpEvent} (he : dhcpStep e c = some c') : c'.Sound a₀ := by
  have hrec := h.toRecorded
  cases e with
  | start memDhcp memPcb mem =>
    cases he
    exact h.dhcpStart memDhcp memPcb mem
  | stop =>
    cases he
    exact h.dhcpStop
  | renew mem =>
    rw [dhcpStep] at he
    split_ifs at he
    cases he
    exact hrec.call .renewing (by decide) mem (by decide) _ _ _
  | release mem =>
    rw [dhcpStep] at he
    split_ifs at he
    cases he
    exact (hrec.dhcpRelease mem).sound (dhcpRelease_state mem) (by decide)
  | networkChanged mem =>
    cases he
    exact h.dhcpNetworkChanged mem
  | fineTmr mem mem' =>
    cases he
    rw [dhcpFineTmr]
    split_ifs
    · exact h.of_eq rfl rfl rfl rfl rfl rfl rfl
    · refine Sound.dhcpTimeout ?_ mem mem'
      exact h.of_eq rfl rfl rfl rfl rfl rfl rfl
    · exact h
    · exact h
  | coarseTmr mem =>
    cases he
    exact h.dhcpCoarseTmr mem
  | arpReply mem addr =>
    cases he
    rw [dhcpArpReply]
    split_ifs
    · exact hrec.call .backingOff (by decide) mem (by decide) _ _ _
    · exact h
  | recv behind fuel mem p =>
    rw [dhcpStep] at he
    split_ifs at he with hp
    exact h.dhcpRecv hp.2 he
  | others xid =>
    cases he
    exact h.of_eq rfl rfl rfl rfl rfl rfl rfl

end Client

end Lwip.Core.Dhcp
