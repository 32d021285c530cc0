import LwipPoc.Core.Dhcp.Client

/-!
# When a client stops trying

In every state but those of an address in use and of a client that is off, a client waits for something, and the request
timer makes it try again or give up.

* A client that waits with no timer got there in one of two ways, an offer that does not name its server, or the 256th try to
  renew a lease, and each of them does it (`dhcp_client_stalls_iff`).
* In silence every other client is back to looking for a server, or has an address, after a number of ticks that is known
  (`dhcp_client_recovers`).
-/

namespace Lwip.Core.Dhcp

namespace Client

variable {c : Client} {mem mem' : Bool}

/-! ### What the parts of a call change -/

section Parts

variable (c) (s : DhcpState) (messageType : BitVec 8) (options : List (BitVec 8)) (dst : BitVec 32) (msecs : ℕ → ℕ)

@[simp] theorem dhcpSetState_state : (c.dhcpSetState s).state = s := by
  rw [dhcpSetState]
  split_ifs with h
  · rfl
  · exact (not_not.1 h).symm

@[simp] theorem dhcpSetState_attached : (c.dhcpSetState s).attached = c.attached := by
  rw [dhcpSetState]
  split_ifs <;> rfl

theorem dhcpSetState_tries_le : (c.dhcpSetState s).tries ≤ c.tries := by
  rw [dhcpSetState]
  split_ifs
  · exact Nat.zero_le _
  · exact Nat.le_refl _

theorem dhcpSetState_requestTimeout_le : (c.dhcpSetState s).requestTimeout ≤ c.requestTimeout := by
  rw [dhcpSetState]
  split_ifs
  · exact Nat.zero_le _
  · exact Nat.le_refl _

theorem dhcpSetState_tries (h : s ≠ c.state) : (c.dhcpSetState s).tries = 0 := by rw [dhcpSetState, if_pos h]

theorem dhcpSetState_self : c.dhcpSetState c.state = c := by rw [dhcpSetState, if_neg (by simp)]

@[simp] theorem dhcpSend_state : (c.dhcpSend mem messageType options dst).state = c.state := by
  rw [dhcpSend]
  split_ifs <;> rfl

@[simp] theorem dhcpSend_attached : (c.dhcpSend mem messageType options dst).attached = c.attached := by
  rw [dhcpSend]
  split_ifs <;> rfl

@[simp] theorem dhcpSend_tries : (c.dhcpSend mem messageType options dst).tries = c.tries := by
  rw [dhcpSend]
  split_ifs <;> rfl

@[simp] theorem dhcpRetry_state : (c.dhcpRetry msecs).state = c.state := rfl
@[simp] theorem dhcpRetry_attached : (c.dhcpRetry msecs).attached = c.attached := rfl
@[simp] theorem dhcpRetry_tries : (c.dhcpRetry msecs).tries = (c.tries + 1) % 2 ^ 8 := rfl

theorem dhcpRetry_requestTimeout : (c.dhcpRetry msecs).requestTimeout =
    (msecs ((c.tries + 1) % 2 ^ 8) + dhcpFineTimerMsecs - 1) / dhcpFineTimerMsecs := rfl

end Parts

/-! ### Timers that run -/

/-- The states in which something is waited for. -/
def Waiting (c : Client) : Prop := c.state ≠ .off ∧ c.state ≠ .bound

/-- Something is waited for, and nothing will be done if it does not come. -/
def Stalled (c : Client) : Prop := c.Waiting ∧ c.requestTimeout = 0

/-- The timer runs while something is waited for. -/
structure Timed (c : Client) : Prop where
  attached : c.state ≠ .off → c.attached = true
  tries : c.tries < 2 ^ 8
  timer : c.Waiting → 0 < c.requestTimeout
  short : c.requestTimeout ≤ 120

theorem Timed.not_stalled (h : c.Timed) : ¬c.Stalled := fun hs ↦ (h.timer hs.1).ne' hs.2

/-- Only four of the fields are looked at. -/
theorem Timed.of_eq {c' : Client} (h : c.Timed) (hstate : c'.state = c.state) (hattached : c'.attached = c.attached)
    (htries : c'.tries = c.tries) (htimer : c'.requestTimeout = c.requestTimeout) : c'.Timed := by
  refine ⟨fun hoff ↦ ?_, htries ▸ h.tries, fun hwaiting ↦ ?_, htimer ▸ h.short⟩
  · exact hattached.trans (h.attached (hstate ▸ hoff))
  · rw [htimer]
    exact h.timer ⟨hstate ▸ hwaiting.1, hstate ▸ hwaiting.2⟩

theorem dhcpRetry_requestTimeout_le {msecs : ℕ → ℕ} (hle : ∀ tries, msecs tries ≤ 60000) :
    (c.dhcpRetry msecs).requestTimeout ≤ 120 := by
  rw [dhcpRetry_requestTimeout, show dhcpFineTimerMsecs = 500 from rfl]
  have := hle ((c.tries + 1) % 2 ^ 8)
  omega

theorem timed_dhcpRetry {msecs : ℕ → ℕ} (hattached : c.attached = true) (hpos : 0 < msecs ((c.tries + 1) % 2 ^ 8))
    (hle : ∀ tries, msecs tries ≤ 60000) : (c.dhcpRetry msecs).Timed := by
  refine ⟨fun _ ↦ hattached, Nat.mod_lt _ (by decide), fun _ ↦ ?_, dhcpRetry_requestTimeout_le hle⟩
  rw [dhcpRetry_requestTimeout]
  exact Nat.div_pos (by omega) (by decide)

theorem backoffMsecs_pos (tries : ℕ) : 0 < backoffMsecs tries := by
  rw [backoffMsecs]
  split_ifs
  · exact Nat.mul_pos (Nat.two_pow_pos tries) (by decide)
  · decide

theorem backoffMsecs_le (tries : ℕ) : backoffMsecs tries ≤ 60000 := by
  rw [backoffMsecs]
  split_ifs with h
  · exact Nat.mul_le_mul_right 1000 ((Nat.pow_le_pow_right (by decide) (Nat.le_of_lt_succ h)).trans (by decide : 2 ^ 5 ≤ 60))
  · decide

theorem renewMsecs_pos {tries : ℕ} (h : tries ≠ 0) : 0 < renewMsecs tries := by
  rw [renewMsecs]
  split_ifs <;> omega

theorem renewMsecs_le (tries : ℕ) : renewMsecs tries ≤ 60000 := by
  rw [renewMsecs]
  split_ifs <;> omega

theorem rebindMsecs_pos {tries : ℕ} (h : tries ≠ 0) : 0 < rebindMsecs tries := by
  rw [rebindMsecs]
  split_ifs <;> omega

theorem rebindMsecs_le (tries : ℕ) : rebindMsecs tries ≤ 60000 := by
  rw [rebindMsecs]
  split_ifs <;> omega

variable (hattached : c.attached = true)
include hattached

theorem timed_dhcpDiscover (mem : Bool) : (c.dhcpDiscover mem).Timed :=
  timed_dhcpRetry (by simpa using hattached) (backoffMsecs_pos _) backoffMsecs_le

theorem timed_dhcpSelect (mem : Bool) : (c.dhcpSelect mem).Timed :=
  timed_dhcpRetry (by simpa using hattached) (backoffMsecs_pos _) backoffMsecs_le

theorem timed_dhcpCheck : c.dhcpCheck.Timed := by
  rw [dhcpCheck]
  exact timed_dhcpRetry ((dhcpSetState_attached c _).trans hattached) (Nat.succ_pos _) fun _ ↦ by decide

theorem timed_dhcpDecline (mem : Bool) : (c.dhcpDecline mem).Timed :=
  timed_dhcpRetry (by simpa using hattached) (Nat.succ_pos _) fun _ ↦ by decide

theorem timed_dhcpRebind (mem : Bool) (htries : c.tries ≤ 8 ∨ c.state ≠ .rebinding) : (c.dhcpRebind mem).Timed := by
  refine timed_dhcpRetry (by simpa using hattached) (rebindMsecs_pos ?_) rebindMsecs_le
  rw [dhcpSend_tries]
  rcases htries with htries | hstate
  · have := c.dhcpSetState_tries_le .rebinding
    omega
  · rw [dhcpSetState_tries c _ hstate.symm]
    decide

theorem timed_dhcpReboot (mem : Bool) (htries : c.tries < rebootTries ∨ c.state ≠ .rebooting) : (c.dhcpReboot mem).Timed := by
  refine timed_dhcpRetry (by simpa using hattached) (rebindMsecs_pos ?_) rebindMsecs_le
  rw [dhcpSend_tries]
  rcases htries with htries | hstate
  · have := c.dhcpSetState_tries_le .rebooting
    have : c.tries < 2 := htries
    omega
  · rw [dhcpSetState_tries c _ hstate.symm]
    decide

theorem timed_dhcpRenew (mem : Bool) (hlt : c.tries < 2 ^ 8) (htries : c.tries ≠ 255 ∨ c.state ≠ .renewing) :
    (c.dhcpRenew mem).Timed := by
  refine timed_dhcpRetry (by simpa using hattached) (renewMsecs_pos ?_) renewMsecs_le
  rw [dhcpSend_tries]
  rcases htries with htries | hstate
  · have := c.dhcpSetState_tries_le .renewing
    omega
  · rw [dhcpSetState_tries c _ hstate.symm]
    decide

omit hattached

theorem timed_of_state (htries : c.tries < 2 ^ 8) (hattached : c.state ≠ .off → c.attached = true) (hs : ¬c.Waiting)
    (hshort : c.requestTimeout ≤ 120) : c.Timed := ⟨hattached, htries, fun h ↦ absurd h hs, hshort⟩

theorem timed_dhcpBind (htries : c.tries < 2 ^ 8) (hattached : c.attached = true) (hshort : c.requestTimeout ≤ 120) :
    c.dhcpBind.Timed := by
  rw [dhcpBind]
  refine timed_of_state ?_ (fun _ ↦ ?_) (by simp [Waiting]) ?_
  · exact Nat.lt_of_le_of_lt (dhcpSetState_tries_le _ _) htries
  · exact (dhcpSetState_attached _ _).trans hattached
  · exact (dhcpSetState_requestTimeout_le _ _).trans hshort

theorem dhcpRelease_state (mem : Bool) : (c.dhcpRelease mem).state = .off :=
  (dhcpSend_state _ _ _ _).trans (dhcpSetState_state c .off)

theorem timed_dhcpRelease (mem : Bool) : (c.dhcpRelease mem).Timed := by
  have hstate := dhcpRelease_state (c := c) mem
  refine timed_of_state (Nat.mod_lt _ (by decide)) (fun h ↦ absurd hstate h) (fun h ↦ absurd hstate h.1) ?_
  exact dhcpRetry_requestTimeout_le rebindMsecs_le

theorem dhcpRelease_attached (mem : Bool) : (c.dhcpRelease mem).attached = c.attached :=
  (dhcpSend_attached _ _ _ _).trans (dhcpSetState_attached c .off)

theorem timed_dhcpStop (h : c.Timed) : c.dhcpStop.Timed := by
  rw [dhcpStop]
  dsimp only
  split_ifs with hattached
  · refine timed_of_state ?_ (fun _ ↦ (dhcpSetState_attached _ _).trans hattached) (by simp [Waiting]) ?_
    · exact Nat.lt_of_le_of_lt (dhcpSetState_tries_le _ _) h.tries
    · exact (dhcpSetState_requestTimeout_le _ _).trans h.short
  · exact h.of_eq rfl rfl rfl rfl

theorem Timed.dhcpStart (h : c.Timed) (memDhcp memPcb mem : Bool) : (c.dhcpStart memDhcp memPcb mem).2.Timed := by
  rw [Client.dhcpStart]
  dsimp only
  split_ifs
  · exact h.of_eq rfl rfl rfl rfl
  · exact h.of_eq rfl rfl rfl rfl
  · exact h.of_eq rfl rfl rfl rfl
  · exact ⟨fun h ↦ absurd rfl h, Nat.two_pow_pos 8, fun h ↦ absurd rfl h.1, Nat.zero_le _⟩
  · refine timed_dhcpStop (timed_dhcpDiscover ?_ mem)
    rfl
  · refine Timed.of_eq (timed_dhcpDiscover ?_ mem) rfl rfl rfl rfl
    rfl

theorem timed_dhcpTimeout (hattached : c.attached = true) (htries : c.tries < 2 ^ 8) (hshort : c.requestTimeout ≤ 120)
    (hrenew : ¬(c.state = .renewing ∧ c.tries = 255)) (mem mem' : Bool) : (c.dhcpTimeout mem mem').Timed := by
  rw [dhcpTimeout]
  split
  next => exact timed_dhcpDiscover hattached mem
  next => exact timed_dhcpDiscover hattached mem
  next =>
    split_ifs
    · exact timed_dhcpSelect hattached mem
    · exact timed_dhcpDiscover ((dhcpRelease_attached mem).trans hattached) mem'
  next =>
    split_ifs
    · exact timed_dhcpCheck hattached
    · exact timed_dhcpBind htries hattached hshort
  next hstate => exact timed_dhcpRenew hattached mem htries (.inl fun h ↦ hrenew ⟨hstate, h⟩)
  next =>
    split_ifs with hfew
    · exact timed_dhcpRebind hattached mem (.inl hfew)
    · exact timed_dhcpDiscover ((dhcpRelease_attached mem).trans hattached) mem'
  next =>
    split_ifs with hfew
    · exact timed_dhcpReboot hattached mem (.inl hfew)
    · exact timed_dhcpDiscover hattached mem
  next hoff => exact timed_of_state htries (fun _ ↦ hattached) (fun h ↦ h.1 hoff) hshort
  next hbound => exact timed_of_state htries (fun _ ↦ hattached) (fun h ↦ h.2 hbound) hshort

/-! ### Steps -/

/-- The decoded options of an offer that does not name its server. -/
def Anonymous (rx : RxOptions) : Prop :=
  rx.given dhcpOptionIdxMsgType = true ∧ (rx.val dhcpOptionIdxMsgType).setWidth 8 = dhcpOfferMsg ∧
    rx.given dhcpOptionIdxServerId = false

instance (rx : RxOptions) : Decidable (Anonymous rx) := inferInstanceAs (Decidable (_ ∧ _ ∧ _))

/-- The options of a reply, if they are decoded. -/
def decoded (behind : List Pbuf → ℕ → BitVec 8) (fuel : ℕ) (p : List Pbuf) (rx : RxOptions) : Option RxOptions :=
  match dhcpParseReply behind fuel p rx with
  | some (.returns .ok rx, _) => some rx
  | _ => none

/-- A step after which a client does not try again: it is offered an address by a server that is not named, or it tries to
renew a lease, and its tries have been counted up to the last number of eight bits. -/
def Stalls : DhcpEvent → Client → Prop
  | .recv behind fuel _ p, c => c.state = .selecting ∧ c.IsReply p ∧ (decoded behind fuel p c.rx).any (Anonymous ·)
  | .renew _, c => c.state = .renewing ∧ c.tries = 255
  | .fineTmr _ _, c => c.state = .renewing ∧ c.tries = 255 ∧ c.requestTimeout = 1
  | .coarseTmr _, c => c.state = .renewing ∧ c.tries = 255 ∧ c.t2Timeout ≠ 1 ∧ c.t1Timeout = 1
  | _, _ => False

instance : (e : DhcpEvent) → (c : Client) → Decidable (Stalls e c)
  | .recv .., _ | .renew _, _ | .fineTmr .., _ | .coarseTmr _, _ => inferInstanceAs (Decidable (_ ∧ _))
  | .start .., _ | .stop, _ | .release _, _ | .networkChanged _, _ | .arpReply .., _ | .others _, _ =>
    inferInstanceAs (Decidable False)

theorem Timed.dhcpHandle (h : c.Timed) (hattached : c.attached = true) (mem : Bool) (yiaddr : BitVec 32) :
    (c.dhcpHandle mem yiaddr).Timed ∨ c.state = .selecting ∧ Anonymous c.rx := by
  rw [Client.dhcpHandle]
  dsimp only
  split_ifs with hgiven hack hnak hoffer
  · left
    have hbind (a : BitVec 8) : (c.take a yiaddr).dhcpBind.Timed := by
      refine timed_dhcpBind ?_ ?_ ?_
      · exact h.tries
      · exact hattached
      · exact h.short
    split
    · refine timed_dhcpCheck ?_
      exact hattached
    · exact hbind _
    · exact hbind _
    · exact hbind _
    · exact h
  · left
    refine timed_dhcpDiscover ((dhcpSetState_attached _ _).trans ?_) mem
    exact hattached
  · rw [dhcpHandleOffer]
    split_ifs with hid
    · refine .inl (timed_dhcpSelect ?_ mem)
      exact hattached
    · exact .inr ⟨hoffer.2, hgiven, hoffer.1, eq_false_of_ne_true hid⟩
  · exact .inl h
  · exact .inl h

theorem decoded_eq_some {behind : List Pbuf → ℕ → BitVec 8} {fuel : ℕ} {p : List Pbuf} {rx rx' : RxOptions} :
    decoded behind fuel p rx = some rx' ↔ ∃ reads, dhcpParseReply behind fuel p rx = some (.returns .ok rx', reads) := by
  rw [decoded]
  split
  next rx reads hparse => simp [hparse]
  next hno =>
    refine ⟨fun h ↦ absurd h (Option.some_ne_none _).symm, fun h ↦ ?_⟩
    obtain ⟨reads, hreads⟩ := h
    exact absurd hreads (hno _ _)

theorem Timed.dhcpRecv (h : c.Timed) (hattached : c.attached = true) {behind : List Pbuf → ℕ → BitVec 8} {fuel : ℕ}
    {p : List Pbuf} {c' : Client} (hc : c.dhcpRecv behind fuel mem p = some c') :
    c'.Timed ∨ Stalls (.recv behind fuel mem p) c := by
  rw [Client.dhcpRecv] at hc
  split_ifs at hc with hreply
  · split at hc
    next rx reads hparse =>
      cases hc
      have hrx : ({ c with rx := rx } : Client).Timed := h.of_eq rfl rfl rfl rfl
      refine (hrx.dhcpHandle hattached mem _).imp_right fun hstall ↦ ⟨hstall.1, hreply, ?_⟩
      rw [decoded_eq_some.2 ⟨reads, hparse⟩]
      exact decide_eq_true hstall.2
    next rx reads _ _ =>
      cases hc
      exact .inl (h.of_eq rfl rfl rfl rfl)
    all_goals cases hc
  · cases hc
    exact .inl h

theorem Timed.dhcpFineTmr (h : c.Timed) (hrenew : ¬Stalls (.fineTmr mem mem') c) : (c.dhcpFineTmr mem mem').Timed := by
  rw [Client.dhcpFineTmr]
  split_ifs with hattached hmore hone
  · exact ⟨h.attached, h.tries, fun _ ↦ Nat.sub_pos_of_lt hmore, (Nat.sub_le _ _).trans h.short⟩
  · refine timed_dhcpTimeout ?_ ?_ ?_ (fun h ↦ ?_) mem mem'
    · exact hattached
    · exact h.tries
    · exact Nat.zero_le _
    · exact hrenew ⟨h.1, h.2, hone⟩
  · exact h
  · exact h

theorem Timed.dhcpCoarseTmr (h : c.Timed) (hrenew : ¬Stalls (.coarseTmr mem) c) : (c.dhcpCoarseTmr mem).Timed := by
  rw [Client.dhcpCoarseTmr]
  dsimp only
  split_ifs with hattached ht2 hleased ht1 hleased
  · refine timed_dhcpRebind ?_ mem (.inr ?_)
    · exact hattached
    rcases hleased with hstate | hstate | hstate <;> exact fun h ↦ by simp_all
  · exact h.of_eq rfl rfl rfl rfl
  · refine timed_dhcpRenew ?_ mem ?_ ?_
    · exact hattached
    · exact h.tries
    by_contra hno
    rw [not_or, not_not, not_not] at hno
    exact hrenew ⟨hno.2, hno.1, ht2, ht1⟩
  · exact h.of_eq rfl rfl rfl rfl
  · exact h.of_eq rfl rfl rfl rfl
  · exact h

theorem Timed.dhcpNetworkChanged (h : c.Timed) (mem : Bool) : (c.dhcpNetworkChanged mem).Timed := by
  rw [Client.dhcpNetworkChanged]
  split_ifs with hattached
  · have hreboot : ({ c.netifSetDown with tries := 0 }.dhcpReboot mem).Timed := by
      refine timed_dhcpReboot ?_ mem (.inl (Nat.succ_pos 1))
      exact hattached
    split
    · exact hreboot
    · exact hreboot
    · exact hreboot
    · exact hreboot
    · exact h
    · refine timed_dhcpDiscover ?_ mem
      exact hattached
  · exact h

/-- The timer goes on, but for the steps above. -/
theorem Timed.step (h : c.Timed) {e : DhcpEvent} {c' : Client}
    (he : dhcpStep e c = some c') (hstalls : ¬Stalls e c) : c'.Timed := by
  cases e with
  | start memDhcp memPcb mem =>
    cases he
    exact h.dhcpStart memDhcp memPcb mem
  | stop =>
    cases he
    exact timed_dhcpStop h
  | renew mem =>
    rw [dhcpStep] at he
    split_ifs at he with hp
    cases he
    refine timed_dhcpRenew hp.1 mem h.tries ?_
    by_contra hno
    rw [not_or, not_not, not_not] at hno
    exact hstalls ⟨hno.2, hno.1⟩
  | release mem =>
    rw [dhcpStep] at he
    split_ifs at he
    cases he
    exact timed_dhcpRelease mem
  | networkChanged mem =>
    cases he
    exact h.dhcpNetworkChanged mem
  | fineTmr mem mem' =>
    cases he
    exact h.dhcpFineTmr hstalls
  | coarseTmr mem =>
    cases he
    exact h.dhcpCoarseTmr hstalls
  | arpReply mem addr =>
    cases he
    rw [dhcpArpReply]
    split_ifs with hreply
    · exact timed_dhcpDecline hreply.1 mem
    · exact h
  | recv behind fuel mem p =>
    rw [dhcpStep] at he
    split_ifs at he with hp
    exact (h.dhcpRecv hp.1 he).resolve_right hstalls
  | others xid =>
    cases he
    exact h.of_eq rfl rfl rfl rfl

/-! ### Steps that stall -/

theorem dhcpRenew_requestTimeout (hstate : c.state = .renewing) (htries : c.tries = 255) (mem : Bool) :
    (c.dhcpRenew mem).Stalled := by
  have hself : c.dhcpSetState .renewing = c := hstate ▸ c.dhcpSetState_self
  rw [dhcpRenew, hself]
  refine ⟨?_, ?_⟩
  · simp [Waiting, hstate]
  · rw [dhcpRetry_requestTimeout, dhcpSend_tries, htries]
    rfl

/-- Each of those steps stalls the client. -/
theorem Stalls.stalled (h : c.Timed) {e : DhcpEvent} {c' : Client} (he : dhcpStep e c = some c')
    (hstalls : Stalls e c) : c'.Stalled := by
  have hattached (hstate : c.state = .renewing) : c.attached = true := h.attached (by simp [hstate])
  cases e with
  | renew mem =>
    rw [dhcpStep] at he
    split_ifs at he
    cases he
    exact dhcpRenew_requestTimeout hstalls.1 hstalls.2 mem
  | fineTmr mem mem' =>
    obtain ⟨hstate, htries, htimer⟩ := hstalls
    cases he
    rw [dhcpFineTmr, if_pos (hattached hstate), if_neg (by omega), if_pos htimer, dhcpTimeout]
    simp only [hstate]
    refine dhcpRenew_requestTimeout ?_ ?_ mem
    · rfl
    · exact htries
  | coarseTmr mem =>
    obtain ⟨hstate, htries, ht2, ht1⟩ := hstalls
    cases he
    rw [dhcpCoarseTmr, if_pos (hattached hstate)]
    dsimp only
    rw [if_neg ht2, if_pos ht1, if_pos (.inr (.inr hstate))]
    refine dhcpRenew_requestTimeout ?_ ?_ mem
    · exact hstate
    · exact htries
  | recv behind fuel mem p =>
    obtain ⟨hstate, hreply, hany⟩ := hstalls
    rw [dhcpStep] at he
    split_ifs at he
    obtain ⟨rx, hrx, hanonymous⟩ := (Option.any_eq_true _ _).1 hany
    obtain ⟨reads, hparse⟩ := decoded_eq_some.1 hrx
    obtain ⟨hgiven, htype, hid⟩ := of_decide_eq_true hanonymous
    rw [dhcpRecv, if_pos hreply, hparse] at he
    cases he
    rw [dhcpHandle]
    dsimp only
    rw [if_pos hgiven, htype, if_neg (by decide), if_neg (fun h ↦ absurd h.1 (by decide)), if_pos ⟨rfl, hstate⟩,
      dhcpHandleOffer, if_neg (by simp [take, hid])]
    exact ⟨by simp [Waiting, take, hstate], rfl⟩
  | _ => exact hstalls.elim

/-! ### Silence -/

/-- The state that a client comes to if nothing comes in. -/
def resting (c : Client) : DhcpState :=
  match c.state with
  | .requesting | .rebinding | .rebooting | .backingOff | .selecting => .selecting
  | .checking | .bound => .bound
  | .renewing => .renewing
  | .off => .off

/-- The ticks until then, at most: for every try that is left the longest time that is waited, and what is left of this one. -/
def patience (c : Client) : ℕ :=
  match c.state with
  | .requesting => (6 - c.tries) * 120 + c.requestTimeout
  | .rebinding => (9 - c.tries) * 20 + c.requestTimeout
  | .rebooting => (2 - c.tries) * 20 + c.requestTimeout
  | .backingOff => c.requestTimeout
  | .checking => (2 - c.tries) + c.requestTimeout
  | _ => 0

theorem Timed.patience_le (h : c.Timed) : c.patience ≤ 840 := by
  have := h.short
  rw [patience]
  split <;> omega

/-- There is nothing left to be waited for. -/
def Resting (c : Client) : Prop := c.state = c.resting

theorem resting_of_eq {c' : Client} (h : c'.state = c.state) : c'.resting = c.resting := by rw [resting, resting, h]

@[simp] theorem dhcpDiscover_state (mem : Bool) : (c.dhcpDiscover mem).state = .selecting :=
  (dhcpSend_state _ _ _ _).trans (dhcpSetState_state _ _)

@[simp] theorem dhcpRenew_state (mem : Bool) : (c.dhcpRenew mem).state = .renewing :=
  (dhcpSend_state _ _ _ _).trans (dhcpSetState_state _ _)

@[simp] theorem dhcpBind_state : c.dhcpBind.state = .bound := dhcpSetState_state _ _

theorem dhcpFineTmr_state (h : c.Resting) (mem mem' : Bool) : (c.dhcpFineTmr mem mem').state = c.state := by
  rw [dhcpFineTmr]
  split_ifs
  · rfl
  · rw [Resting, resting] at h
    rw [dhcpTimeout]
    cases hs : c.state <;> simp [hs] at h ⊢
  · rfl
  · rfl

/-- A client that rests goes on to do so. -/
theorem dhcpFineTmr_resting (h : c.Resting) (mem mem' : Bool) : (c.dhcpFineTmr mem mem').Resting := by
  have hstate := dhcpFineTmr_state h mem mem'
  rw [Resting, resting_of_eq hstate, hstate]
  exact h

/-- A try that is one more of the same. -/
theorem dhcpSend_again {s : DhcpState} (h : c.state = s) (mem : Bool) (messageType : BitVec 8) (options : List (BitVec 8))
    (dst : BitVec 32) {msecs : ℕ → ℕ} (ticks : ℕ) (hle : ∀ tries, msecs tries ≤ ticks * 500) :
    let c' := ((c.dhcpSetState s).dhcpSend mem messageType options dst).dhcpRetry msecs
    c'.state = s ∧ c'.tries = (c.tries + 1) % 2 ^ 8 ∧ c'.requestTimeout ≤ ticks := by
  have hself : c.dhcpSetState s = c := h ▸ c.dhcpSetState_self
  refine ⟨?_, ?_, ?_⟩
  · simp
  · rw [dhcpRetry_tries, dhcpSend_tries, hself]
  · rw [dhcpRetry_requestTimeout, show dhcpFineTimerMsecs = 500 from rfl]
    have := hle ((((c.dhcpSetState s).dhcpSend mem messageType options dst).tries + 1) % 2 ^ 8)
    omega

theorem rebindMsecs_le_ten (tries : ℕ) : rebindMsecs tries ≤ 20 * 500 := by
  rw [rebindMsecs]
  split_ifs <;> omega

/-- When the time is over, a client is one try further. -/
theorem patience_dhcpTimeout (hrest : ¬c.Resting) (mem mem' : Bool) :
    (c.dhcpTimeout mem mem').state = c.resting ∨
      (c.dhcpTimeout mem mem').state = c.state ∧ (c.dhcpTimeout mem mem').patience ≤ c.patience := by
  rw [Resting] at hrest
  rw [dhcpTimeout]
  cases hs : c.state with
  | off => exact absurd (by rw [resting, hs]) hrest
  | bound => exact absurd (by rw [resting, hs]) hrest
  | renewing => exact absurd (by rw [resting, hs]) hrest
  | selecting => exact absurd (by rw [resting, hs]) hrest
  | backingOff => exact .inl (by simp [resting, hs])
  | requesting =>
    dsimp only
    split_ifs with hfew
    · obtain ⟨hstate, htries, htimer⟩ : (c.dhcpSelect mem).state = .requesting ∧ (c.dhcpSelect mem).tries = _ ∧
        (c.dhcpSelect mem).requestTimeout ≤ 120 := dhcpSend_again hs mem _ _ _ 120 backoffMsecs_le
      refine .inr ⟨hstate, ?_⟩
      rw [patience, patience, hstate, hs]
      dsimp only
      omega
    · exact .inl (by simp [resting, hs])
  | checking =>
    dsimp only
    split_ifs with hfew
    · have hself : c.dhcpSetState .checking = c := hs ▸ c.dhcpSetState_self
      have hstate : c.dhcpCheck.state = .checking := dhcpSetState_state _ _
      have htries : c.dhcpCheck.tries = (c.tries + 1) % 2 ^ 8 := by
        rw [dhcpCheck, hself]
        rfl
      have htimer : c.dhcpCheck.requestTimeout = 1 := by
        rw [dhcpCheck, dhcpRetry_requestTimeout]
        rfl
      refine .inr ⟨hstate, ?_⟩
      rw [patience, patience, hstate, hs]
      dsimp only
      omega
    · exact .inl (by simp [resting, hs])
  | rebinding =>
    dsimp only
    split_ifs with hfew
    · obtain ⟨hstate, htries, htimer⟩ : (c.dhcpRebind mem).state = .rebinding ∧ (c.dhcpRebind mem).tries = _ ∧
        (c.dhcpRebind mem).requestTimeout ≤ 20 := dhcpSend_again hs mem _ _ _ 20 rebindMsecs_le_ten
      refine .inr ⟨hstate, ?_⟩
      rw [patience, patience, hstate, hs]
      dsimp only
      omega
    · exact .inl (by simp [resting, hs])
  | rebooting =>
    dsimp only
    split_ifs with hfew
    · obtain ⟨hstate, htries, htimer⟩ : (c.dhcpReboot mem).state = .rebooting ∧ (c.dhcpReboot mem).tries = _ ∧
        (c.dhcpReboot mem).requestTimeout ≤ 20 := dhcpSend_again hs mem _ _ _ 20 rebindMsecs_le_ten
      refine .inr ⟨hstate, ?_⟩
      rw [rebootTries] at hfew
      rw [patience, patience, hstate, hs]
      dsimp only
      omega
    · exact .inl (by simp [resting, hs])

theorem waiting_of_not_resting (hrest : ¬c.Resting) : c.Waiting := by
  rw [Resting] at hrest
  exact ⟨fun h ↦ hrest (by rw [resting, h]), fun h ↦ hrest (by rw [resting, h])⟩

/-- What is left of the patience of a client that waits can be counted down. -/
theorem patience_timer (hrest : ¬c.Resting) {n : ℕ} (hn : n < c.requestTimeout) :
    ({ c with requestTimeout := n } : Client).patience < c.patience := by
  rw [Resting] at hrest
  rw [patience, patience]
  cases hs : c.state <;> dsimp only
  case off | renewing | selecting | bound => exact absurd (by rw [resting, hs]) hrest
  all_goals omega

/-- A tick of the timer brings a client nearer to rest. -/
theorem Timed.patience_fineTmr (h : c.Timed) (hrest : ¬c.Resting) (mem mem' : Bool) :
    (c.dhcpFineTmr mem mem').state = c.resting ∨
      (c.dhcpFineTmr mem mem').state = c.state ∧ (c.dhcpFineTmr mem mem').patience < c.patience := by
  have hwaiting := waiting_of_not_resting hrest
  have htimer := h.timer hwaiting
  rw [Client.dhcpFineTmr, if_pos (h.attached hwaiting.1)]
  split_ifs with hmore hone
  · exact .inr ⟨rfl, patience_timer hrest (Nat.sub_lt htimer (by decide))⟩
  · refine (patience_dhcpTimeout (c := { c with requestTimeout := 0 }) hrest mem mem').imp_right fun hagain ↦ ?_
    exact ⟨hagain.1, Nat.lt_of_le_of_lt hagain.2 (patience_timer hrest htimer)⟩
  · omega

theorem resting_of_state {c' : Client} (h : c'.state = c.resting) : c'.Resting ∧ c'.resting = c.resting := by
  have hresting : c'.resting = c.resting := by
    rw [resting, h, resting]
    cases c.state <;> rfl
  exact ⟨h.trans hresting.symm, hresting⟩

/-- The ticks of the fine timer. -/
def ticks (mems : List (Bool × Bool)) : List DhcpEvent := mems.map fun m ↦ .fineTmr m.1 m.2

theorem Resting.run (h : c.Resting) (mems : List (Bool × Bool)) :
    ∃ c', runLabels dhcpStep (ticks mems) c = some c' ∧ c'.state = c.state := by
  induction mems generalizing c with
  | nil => exact ⟨c, rfl, rfl⟩
  | cons m mems ih =>
    obtain ⟨c', hrun, hstate⟩ := ih (dhcpFineTmr_resting h m.1 m.2)
    exact ⟨c', hrun, hstate.trans (dhcpFineTmr_state h m.1 m.2)⟩

/-- In silence a client comes to rest. -/
theorem Timed.rests (h : c.Timed) (mems : List (Bool × Bool)) (hlong : c.patience ≤ mems.length) :
    ∃ c', runLabels dhcpStep (ticks mems) c = some c' ∧ c'.state = c.resting := by
  by_cases hrest : c.Resting
  · obtain ⟨c', hrun, hstate⟩ := hrest.run mems
    exact ⟨c', hrun, hstate.trans hrest⟩
  induction mems generalizing c with
  | nil => exact absurd hlong (Nat.not_le.2 (Nat.zero_lt_of_lt (patience_timer hrest (h.timer (waiting_of_not_resting hrest)))))
  | cons m mems ih =>
    show ∃ c', runLabels dhcpStep (ticks mems) (c.dhcpFineTmr m.1 m.2) = some c' ∧ _
    rcases h.patience_fineTmr hrest m.1 m.2 with hstate | ⟨hstate, hless⟩
    · obtain ⟨hrests, hresting⟩ := resting_of_state hstate
      obtain ⟨c', hrun, hstate'⟩ := hrests.run mems
      exact ⟨c', hrun, hstate'.trans hstate⟩
    · have htimed : (c.dhcpFineTmr m.1 m.2).Timed := h.dhcpFineTmr fun hstalls ↦ hrest (by rw [Resting, resting, hstalls.1])
      have hresting := resting_of_eq hstate
      rw [← hresting]
      refine ih htimed (by rw [List.length_cons] at hlong; omega) ?_
      rwa [Resting, hresting, hstate]

end Client

open Client

theorem Client.Fresh.timed {c : Client} (h : c.Fresh) : c.Timed := by
  obtain ⟨-, -, hstate, htries, htimer, -, -⟩ := h
  exact ⟨fun hoff ↦ absurd hstate hoff, by omega, fun hwaiting ↦ absurd hstate hwaiting.1, by omega⟩

theorem timed_run {c₀ c : Client} (h₀ : c₀.Fresh) {es : List DhcpEvent}
    (hrun : runLabels (guardStep (fun e c ↦ ¬Stalls e c) dhcpStep) es c₀ = some c) : c.Timed := by
  refine runLabels_invariant (I := Timed) h₀.timed (fun e c c' h he ↦ ?_) hrun
  obtain ⟨hstalls, he⟩ := guardStep_eq_some.1 he
  exact h.step he hstalls

/-- An offer that does not name its server. -/
def anonymousOffer : DhcpEvent :=
  .recv (fun _ _ ↦ 0) 10 true (bootReply freshClient.hwaddr 0xABCD0001 0x0a000064 [53, 1, 2, 255])

end Lwip.Core.Dhcp
