import Mathlib.Algebra.Order.BigOperators.Group.List
import Mathlib.Algebra.Order.Group.Nat
import LwipPoc.Core.Timers
import LwipPoc.Port.MailboxThreads

/-!
# The timers of the tcpip thread under message traffic

`sys_timeouts_mbox_fetch` waits for a message no longer than until the first timer is due, and
**learns from the return value of `sys_arch_mbox_fetch` how long it has waited**: on
`SYS_ARCH_TIMEOUT` the first timer has run down, else the return value is taken from its time. The
two functions are in different files and agree through `doc/sys_arch.txt` only, which says that the
fetch returns the milliseconds it spent waiting.

The port's fetch returns 0 for a message, whatever it has waited. So the time waited for a message
is lost to every timer. On Windows its timed wait, moreover, is not repeated: a spurious wakeup
counts as a timeout.

The machine is the loop over the port's mailbox, on a clock that advances only in a wait. Timers are
registered and cancelled in handlers, while messages are processed, and before the loop starts.
`timers_on_schedule_iff` says when the timers are on schedule: exactly when no wait of at least one
millisecond was ended by a message, and no wait was cut short on Windows.
-/

namespace Lwip.Core

open Lwip.Port

variable {μ η α : Type*}

namespace SysTimeo

/-- What `sys_timeouts_mbox_fetch` does with the value a fetch returned: on a timeout it takes the
first timer off the list, else it takes the value from the first timer's time. -/
def account (timeNeeded : U32) : List (SysTimeo η α) → List (SysTimeo η α)
  | [] => []
  | t :: ts =>
    if timeNeeded = sysArchTimeout then ts
    else if timeNeeded < t.time then { t with time := t.time - timeNeeded } :: ts
    else { t with time := 0 } :: ts

/-- The time until the last timer on the list is due. -/
def span (ts : List (SysTimeo η α)) : ℕ :=
  (ts.map fun t ↦ t.time.toNat).sum

end SysTimeo

open SysTimeo

/-- Where the tcpip thread stands. -/
inductive LoopPc where
  /-- At the label `again` of `sys_timeouts_mbox_fetch`. -/
  | again
  /-- In the wait of `sys_arch_mbox_fetch`, for `elapsed` milliseconds so far. -/
  | waiting (timeout : U32) (elapsed : ℕ)
  /-- In the initialisation, a timeout handler, or the processing of a message. -/
  | running
  deriving DecidableEq, Repr

/-- The milliseconds waited so far in the wait that is going on. -/
def LoopPc.elapsed : LoopPc → ℕ
  | .waiting _ elapsed => elapsed
  | _ => 0

/-- A call of `sys_arch_mbox_fetch` with a timeout that has returned. -/
structure Fetch where
  /-- The timeout. -/
  timeout : U32
  /-- The milliseconds it waited. -/
  elapsed : ℕ
  /-- What it returned. -/
  ret : U32
  /-- By how much `sys_timeouts_mbox_fetch` then reduced the first timer's time. -/
  reduction : ℕ
  deriving DecidableEq, Repr

/-- The mailbox, the timers, the tcpip thread, and the history of fetches with a timeout. -/
structure TcpipLoop (μ η α : Type*) where
  /-- The mailbox of the tcpip thread. -/
  mbox : Mbox μ
  /-- The list from `next_timeout`. -/
  timeouts : List (SysTimeo η α)
  /-- Where the thread stands. -/
  pc : LoopPc
  /-- The history. -/
  fetches : List Fetch

/-- The steps: a message is posted at the address `n`, a millisecond passes, the wait returns, the
loop goes on, the running code calls `sys_timeout` or `sys_untimeout`, or it is done. -/
inductive LoopLabel (μ η α : Type*) where
  | post (msg : μ) (n : ℕ)
  | tick
  | wake (timedOut : Bool)
  | again
  | timeout (msecs : U32) (handler : Option η) (arg : α)
  | untimeout (handler : Option η) (arg : α)
  | done

namespace TcpipLoop

/-- The thread before its loop. -/
def init (size : ℤ) : TcpipLoop μ η α where
  mbox := .sysMboxNew size
  timeouts := []
  pc := .running
  fetches := []

/-- The milliseconds spent waiting in fetches with a timeout that have returned. -/
def waited (s : TcpipLoop μ η α) : ℕ := (s.fetches.map Fetch.elapsed).sum

/-- The total by which these fetches have reduced the first timer's time. -/
def reduced (s : TcpipLoop μ η α) : ℕ := (s.fetches.map Fetch.reduction).sum

/-- The thread takes the first timer off the list and calls its handler, if it has one. -/
def expire (s : TcpipLoop μ η α) : Option (TcpipLoop μ η α) :=
  match s.timeouts with
  | [] => none
  | t :: _ =>
    some { s with
      timeouts := account sysArchTimeout s.timeouts
      pc := if t.h = none then .again else .running }

/-- The history after a fetch has returned `ret`; fetches without a timeout are not recorded. -/
def record (s : TcpipLoop μ η α) (timeout : U32) (elapsed : ℕ) (ret : U32) : List Fetch :=
  if timeout = 0 then s.fetches
  else s.fetches ++ [⟨timeout, elapsed, ret, span s.timeouts - span (account ret s.timeouts)⟩]

/-- A section of the fetch ends: the thread waits on, or the fetch returns and
`sys_timeouts_mbox_fetch` goes on with the value it returned. -/
def fetchSection (s : TcpipLoop μ η α) (timeout : U32) (elapsed : ℕ) :
    FetchNext → Option (TcpipLoop μ η α)
  | .wait => some { s with pc := .waiting timeout elapsed }
  | .giveUp => { s with fetches := s.record timeout elapsed sysArchTimeout }.expire
  | .dequeue =>
    s.mbox.dequeue.map fun r ↦
      { mbox := r.2
        timeouts := account 0 s.timeouts
        pc := .running
        fetches := s.record timeout elapsed 0 }

variable [DecidableEq η] [DecidableEq α]

/-- One step. -/
def step (plat : Platform) : LoopLabel μ η α → TcpipLoop μ η α → Option (TcpipLoop μ η α)
  | .post msg n, s => (s.mbox.sysMboxTrypost n msg).map fun r ↦ { s with mbox := r.2 }
  | .tick, s =>
    match s.pc with
    | .waiting timeout elapsed =>
      if timeout = 0 ∨ elapsed < timeout.toNat then
        some { s with pc := .waiting timeout (elapsed + 1) }
      else none
    | _ => none
  | .wake timedOut, s =>
    match s.pc with
    | .waiting timeout elapsed =>
      -- a wait times out when its time has passed, and not otherwise
      if timedOut = true → timeout ≠ 0 ∧ elapsed = timeout.toNat then
        s.fetchSection timeout elapsed (fetchNext plat timeout (.woken timedOut) s.mbox)
      else none
    | _ => none
  | .again, s =>
    match s.pc with
    | .again =>
      match s.timeouts with
      | [] => s.fetchSection 0 0 (fetchNext plat 0 .entered s.mbox)
      | t :: _ =>
        if 0 < t.time then s.fetchSection t.time 0 (fetchNext plat t.time .entered s.mbox)
        else s.expire
    | _ => none
  | .timeout msecs handler arg, s =>
    if s.pc = .running then
      some { s with timeouts := sysTimeout ⟨msecs, handler, arg, s.waited + msecs.toNat⟩ s.timeouts }
    else none
  | .untimeout handler arg, s =>
    if s.pc = .running then some { s with timeouts := sysUntimeout handler arg s.timeouts }
    else none
  | .done, s => if s.pc = .running then some { s with pc := .again } else none

/-- **The condition** on a step: a timed wait that returns with a message there has waited 0 ms, and
on Windows one that returns with no message there has waited its full time. -/
def Prompt (plat : Platform) (s : TcpipLoop μ η α) : LoopLabel μ η α → Prop
  | .wake _ =>
    match s.pc with
    | .waiting timeout elapsed => timeout ≠ 0 →
      if s.mbox.count = 0 then plat = .windows → elapsed = timeout.toNat else elapsed = 0
    | _ => True
  | _ => True

/-- **The timers are on schedule**: the fetches have reduced the first timer's time by the time
waited, each returned the milliseconds it waited or `SYS_ARCH_TIMEOUT`, and no timer is left on the
list when more time has been waited than it was registered for. -/
structure OnSchedule (s : TcpipLoop μ η α) : Prop where
  total : s.reduced = s.waited
  returned : ∀ f ∈ s.fetches, f.ret = sysArchTimeout ∨ f.ret.toNat = f.elapsed
  not_overdue : ∀ x ∈ s.timeouts, s.waited + s.pc.elapsed ≤ x.due

/-! ### What a fetch returns and what it takes from the timers -/

omit [DecidableEq η] [DecidableEq α] in
theorem account_zero (ts : List (SysTimeo η α)) : account 0 ts = ts := by
  cases ts with
  | nil => rfl
  | cons t ts =>
    have hzero : (0 : U32) ≠ sysArchTimeout := by decide
    rw [account, if_neg hzero]
    split_ifs with hpos
    · rw [show t.time - 0 = t.time from BitVec.sub_zero _]
    · have ht : t.time = 0 := by
        have hle : t.time.toNat ≤ 0 := BitVec.not_lt.1 hpos
        exact BitVec.eq_of_toNat_eq (by simpa using hle)
      rw [← ht]

omit [DecidableEq η] [DecidableEq α] in
theorem account_timeout (t : SysTimeo η α) (ts : List (SysTimeo η α)) :
    account sysArchTimeout (t :: ts) = ts := by
  rw [account, if_pos rfl]

omit [DecidableEq η] [DecidableEq α] in
theorem span_cons_sub (t : SysTimeo η α) (ts : List (SysTimeo η α)) :
    span (t :: ts) - span ts = t.time.toNat := by
  rw [span, span, List.map_cons, List.sum_cons]
  omega

/-- The wait for `timeout` is a wait without timers, or a wait for the first timer. -/
def Awaits (s : TcpipLoop μ η α) (timeout : U32) (elapsed : ℕ) : Prop :=
  (timeout = 0 ∧ s.timeouts = []) ∨
    ∃ t ts, s.timeouts = t :: ts ∧ t.time = timeout ∧ timeout ≠ 0 ∧ elapsed ≤ timeout.toNat

variable {plat : Platform} {s s' : TcpipLoop μ η α} {timeout : U32} {elapsed : ℕ}
  {next : FetchNext} {l : LoopLabel μ η α}

omit [DecidableEq η] [DecidableEq α] in
/-- **The ends of a section of the fetch**: it waits on; or the first timer has run down; or there
is a message, and nothing is taken from the timers. -/
theorem fetchSection_cases (haw : s.Awaits timeout elapsed)
    (h : s.fetchSection timeout elapsed next = some s') :
    (next = .wait ∧ s' = { s with pc := .waiting timeout elapsed }) ∨
    (∃ t, next = .giveUp ∧ s.timeouts = t :: s'.timeouts ∧ t.time = timeout ∧ timeout ≠ 0 ∧
      elapsed ≤ timeout.toNat ∧ s'.mbox = s.mbox ∧ s'.pc.elapsed = 0 ∧
      (∀ timeout' elapsed', s'.pc ≠ .waiting timeout' elapsed') ∧
      s'.fetches = s.fetches ++ [⟨timeout, elapsed, sysArchTimeout, timeout.toNat⟩]) ∨
    (∃ msg m, next = .dequeue ∧ s.mbox.dequeue = some (msg, m) ∧
      s' = { s with
        mbox := m
        pc := .running
        fetches := if timeout = 0 then s.fetches else s.fetches ++ [⟨timeout, elapsed, 0, 0⟩] }) := by
  cases next with
  | wait => exact Or.inl ⟨rfl, (Option.some.inj h).symm⟩
  | giveUp =>
    refine Or.inr (Or.inl ?_)
    rcases haw with ⟨-, hnil⟩ | ⟨t, ts, hts, rfl, hne, hle⟩
    · simp [fetchSection, expire, hnil] at h
    · have hred : span s.timeouts - span (account sysArchTimeout s.timeouts) = t.time.toNat := by
        rw [hts, account_timeout, span_cons_sub]
      simp only [fetchSection, expire, record, hts, if_neg hne, Option.some.injEq] at h
      subst h
      refine ⟨t, rfl, ?_, rfl, hne, hle, rfl, ?_, ?_, ?_⟩
      · rw [hts, account_timeout]
      · dsimp only
        split_ifs <;> rfl
      · intro timeout' elapsed'
        dsimp only
        split_ifs <;> exact nofun
      · rw [← hts, hred]
  | dequeue =>
    refine Or.inr (Or.inr ?_)
    obtain ⟨⟨msg, m⟩, hm, rfl⟩ := Option.map_eq_some_iff.1 h
    refine ⟨msg, m, rfl, hm, ?_⟩
    rw [record, account_zero, Nat.sub_self]

/-- At its entry, or without a timeout, the fetch from a valid mailbox waits for a message. -/
theorem fetchNext_untimed {start : FetchStart} {m : Mbox μ} (hvalid : m.valid = true)
    (h : timeout = 0 ∨ start = .entered) :
    fetchNext plat timeout start m = if m.count = 0 then .wait else .dequeue := by
  cases plat with
  | windows =>
    simp only [fetchNext, hvalid]
    split_ifs <;> simp_all
  | posix =>
    simp only [fetchNext, hvalid]
    split_ifs <;> simp_all

/-- A timed wait that returns gives up if there is no message, except that on POSIX it first waits
out its time. -/
theorem fetchNext_timed {timedOut : Bool} {m : Mbox μ} (hvalid : m.valid = true)
    (h : timeout ≠ 0) :
    fetchNext plat timeout (.woken timedOut) m =
      if m.count = 0 then if plat = .posix ∧ timedOut = false then .wait else .giveUp
      else .dequeue := by
  cases plat with
  | windows =>
    simp only [fetchNext, hvalid, h]
    split_ifs <;> simp_all
  | posix =>
    simp only [fetchNext, hvalid, h]
    split_ifs <;> simp_all

/-! ### The invariant -/

/-- **The invariant.** -/
structure Inv (s : TcpipLoop μ η α) : Prop where
  /-- The mailbox represents a queue. -/
  mbox : ∃ xs, s.mbox.Holds xs
  /-- Nobody frees it. -/
  valid : s.mbox.valid = true
  /-- The thread waits without timers, or for the first timer. -/
  awaits : ∀ timeout elapsed, s.pc = .waiting timeout elapsed → s.Awaits timeout elapsed
  /-- A recorded fetch returned 0 and took nothing from the timers, or it timed out and took all of
  the first timer's time. -/
  fetches : ∀ f ∈ s.fetches, (f.ret = 0 ∧ f.reduction = 0) ∨
    (f.ret = sysArchTimeout ∧ f.reduction = f.timeout.toNat ∧ f.elapsed ≤ f.timeout.toNat)

/-- **What a step can do to the timers and to the history**, and how it shows in the record whether
the step meets the condition `prompt`. -/
inductive Effect (s s' : TcpipLoop μ η α) (prompt : Prop) : Prop
  /-- Nothing is recorded and the list stays. -/
  | quiet (hp : prompt) (hf : s'.fetches = s.fetches) (ht : s'.timeouts = s.timeouts)
  /-- A timer is registered. -/
  | register (hp : prompt) (hf : s'.fetches = s.fetches) (msecs : U32) (hd : Option η) (a : α)
      (ht : s'.timeouts = sysTimeout ⟨msecs, hd, a, s.waited + msecs.toNat⟩ s.timeouts)
  /-- A timer is cancelled. -/
  | cancel (hp : prompt) (hf : s'.fetches = s.fetches) (hd : Option η) (a : α)
      (ht : s'.timeouts = sysUntimeout hd a s.timeouts)
  /-- A timer that is due at once runs. -/
  | expire (hp : prompt) (hf : s'.fetches = s.fetches) (t : SysTimeo η α)
      (ht : s.timeouts = t :: s'.timeouts) (hzero : t.time = 0)
  /-- A fetch returns a message. -/
  | message (timeout : U32) (elapsed : ℕ)
      (hf : s'.fetches = s.fetches ++ [⟨timeout, elapsed, 0, 0⟩])
      (ht : s'.timeouts = s.timeouts) (hp : prompt ↔ elapsed = 0)
  /-- A fetch times out, and the first timer runs. -/
  | timedOut (t : SysTimeo η α) (elapsed : ℕ)
      (hf : s'.fetches = s.fetches ++ [⟨t.time, elapsed, sysArchTimeout, t.time.toNat⟩])
      (ht : s.timeouts = t :: s'.timeouts) (hle : elapsed ≤ t.time.toNat)
      (hp : prompt ↔ elapsed = t.time.toNat)

theorem Inv.wake_effect {timedOut : Bool} (h : s.Inv) (hpc : s.pc = .waiting timeout elapsed)
    (hl : TcpipLoop.step plat (.wake timedOut) s = some s') :
    Effect s s' (Prompt plat s (.wake timedOut)) := by
  have hprompt : Prompt plat s (.wake timedOut) ↔ (timeout ≠ 0 →
      if s.mbox.count = 0 then plat = .windows → elapsed = timeout.toNat else elapsed = 0) := by
    simp only [Prompt, hpc]
  have haw := h.awaits timeout elapsed hpc
  simp only [TcpipLoop.step, hpc] at hl
  obtain ⟨htime, hl⟩ := Option.ite_none_right_eq_some.1 hl
  by_cases hzero : timeout = 0
  · -- no timers: the fetch waits for a message
    have hp : Prompt plat s (.wake timedOut) := hprompt.2 fun hne ↦ absurd hzero hne
    rw [fetchNext_untimed h.valid (Or.inl hzero)] at hl
    rcases fetchSection_cases haw hl with ⟨-, rfl⟩ | ⟨t, hnext, -⟩ | ⟨msg, m, -, -, rfl⟩
    · exact .quiet hp rfl rfl
    · split_ifs at hnext
    · exact .quiet hp (if_pos hzero) rfl
  · rw [fetchNext_timed h.valid hzero] at hl
    rcases fetchSection_cases haw hl with ⟨hnext, rfl⟩ | ⟨t, hnext, ht, rfl, -, hle, -, -, -, hf⟩ |
      ⟨msg, m, hnext, -, rfl⟩
    · split_ifs at hnext with hcount hposix
      refine .quiet (hprompt.2 fun _ ↦ ?_) rfl rfl
      rw [if_pos hcount]
      exact fun hwin ↦ absurd (hposix.1.symm.trans hwin) nofun
    · split_ifs at hnext with hcount hposix
      refine .timedOut t elapsed hf ht hle (hprompt.trans ?_)
      rw [if_pos hcount]
      refine ⟨fun hp ↦ ?_, fun heq _ _ ↦ heq⟩
      -- on POSIX the fetch gives up only when its time has passed
      cases plat with
      | windows => exact hp hzero rfl
      | posix => exact (htime (by simpa using hposix)).2
    · split_ifs at hnext with hcount
      · refine .message timeout elapsed (if_neg hzero) rfl (hprompt.trans ?_)
        rw [if_neg hcount]
        exact ⟨fun hp ↦ hp hzero, fun heq _ ↦ heq⟩

theorem Inv.again_effect (h : s.Inv) (hpc : s.pc = .again)
    (hl : TcpipLoop.step plat .again s = some s') : Effect s s' (Prompt plat s .again) := by
  simp only [TcpipLoop.step, hpc] at hl
  split at hl
  · next hnil =>
    rw [fetchNext_untimed h.valid (Or.inl rfl)] at hl
    rcases fetchSection_cases (Or.inl ⟨rfl, hnil⟩) hl with ⟨-, rfl⟩ | ⟨t, hnext, -⟩ |
      ⟨msg, m, -, -, rfl⟩
    · exact .quiet trivial rfl rfl
    · split_ifs at hnext
    · exact .quiet trivial rfl rfl
  · next t ts hts =>
    split_ifs at hl with hpos
    · have hne : t.time ≠ 0 := fun hzero ↦ absurd (hzero ▸ hpos) (by decide)
      rw [fetchNext_untimed h.valid (Or.inr rfl)] at hl
      rcases fetchSection_cases (Or.inr ⟨t, ts, hts, rfl, hne, Nat.zero_le _⟩) hl with
        ⟨-, rfl⟩ | ⟨t, hnext, -⟩ | ⟨msg, m, -, -, rfl⟩
      · exact .quiet trivial rfl rfl
      · split_ifs at hnext
      · exact .message t.time 0 (if_neg hne) rfl ⟨fun _ ↦ rfl, fun _ ↦ trivial⟩
    · have hzero : t.time = 0 := by
        have hle : t.time.toNat ≤ 0 := BitVec.not_lt.1 hpos
        exact BitVec.eq_of_toNat_eq (by simpa using hle)
      simp only [expire, hts, Option.some.injEq] at hl
      subst hl
      exact .expire trivial rfl t (by rw [hts, account_timeout]) hzero

theorem Inv.step_effect (h : s.Inv) (hl : step plat l s = some s') :
    Effect s s' (Prompt plat s l) := by
  cases l with
  | post msg n =>
    obtain ⟨r, -, rfl⟩ := Option.map_eq_some_iff.1 hl
    exact .quiet trivial rfl rfl
  | tick =>
    cases hpc : s.pc with
    | waiting timeout elapsed =>
      simp only [step, hpc] at hl
      obtain ⟨-, hl⟩ := Option.ite_none_right_eq_some.1 hl
      obtain rfl := Option.some.inj hl
      exact .quiet trivial rfl rfl
    | again | running =>
      simp only [step, hpc] at hl
      cases hl
  | wake timedOut =>
    cases hpc : s.pc with
    | waiting timeout elapsed => exact h.wake_effect hpc hl
    | again | running =>
      simp only [step, hpc] at hl
      cases hl
  | again =>
    cases hpc : s.pc with
    | again => exact h.again_effect hpc hl
    | waiting _ _ | running =>
      simp only [step, hpc] at hl
      cases hl
  | timeout msecs hd a =>
    obtain ⟨-, hl⟩ := Option.ite_none_right_eq_some.1 hl
    obtain rfl := Option.some.inj hl
    exact .register trivial rfl msecs hd a rfl
  | untimeout hd a =>
    obtain ⟨-, hl⟩ := Option.ite_none_right_eq_some.1 hl
    obtain rfl := Option.some.inj hl
    exact .cancel trivial rfl hd a rfl
  | done =>
    obtain ⟨-, hl⟩ := Option.ite_none_right_eq_some.1 hl
    obtain rfl := Option.some.inj hl
    exact .quiet trivial rfl rfl

/-! ### Whole runs -/

omit [DecidableEq η] [DecidableEq α] in
theorem inv_init (size : ℤ) : (init size : TcpipLoop μ η α).Inv where
  mbox := ⟨[], Mbox.holds_sysMboxNew size⟩
  valid := rfl
  awaits := nofun
  fetches := nofun

omit [DecidableEq η] [DecidableEq α] in
/-- What a section of the fetch leaves behind is ready for the next one. -/
theorem Inv.ready_fetchSection (h : s.Inv) (haw : s.Awaits timeout elapsed)
    (hl : s.fetchSection timeout elapsed next = some s') :
    (∃ xs, s'.mbox.Holds xs) ∧ s'.mbox.valid = true ∧
      ∀ timeout elapsed, s'.pc = .waiting timeout elapsed → s'.Awaits timeout elapsed := by
  rcases fetchSection_cases haw hl with ⟨-, rfl⟩ | ⟨t, -, -, -, -, -, hmbox, -, hpc, -⟩ |
    ⟨msg, m, -, hdeq, rfl⟩
  · refine ⟨h.mbox, h.valid, fun timeout' elapsed' hpc ↦ ?_⟩
    obtain ⟨rfl, rfl⟩ := LoopPc.waiting.inj hpc
    exact haw
  · rw [hmbox]
    exact ⟨h.mbox, h.valid, fun timeout' elapsed' hpc' ↦ absurd hpc' (hpc timeout' elapsed')⟩
  · obtain ⟨xs, hxs⟩ := h.mbox
    obtain ⟨ys, hys, hvalid⟩ := hxs.of_dequeue hdeq
    exact ⟨⟨ys, hys⟩, hvalid.trans h.valid, nofun⟩

theorem Inv.ready_step (h : s.Inv) (hl : step plat l s = some s') :
    (∃ xs, s'.mbox.Holds xs) ∧ s'.mbox.valid = true ∧
      ∀ timeout elapsed, s'.pc = .waiting timeout elapsed → s'.Awaits timeout elapsed := by
  cases l with
  | post msg n =>
    obtain ⟨⟨err, m⟩, hpost, rfl⟩ := Option.map_eq_some_iff.1 hl
    obtain ⟨xs, hxs⟩ := h.mbox
    obtain ⟨ys, hys, hvalid⟩ := hxs.of_trypost hpost
    exact ⟨⟨ys, hys⟩, hvalid.trans h.valid, h.awaits⟩
  | tick =>
    cases hpc : s.pc with
    | waiting timeout elapsed =>
      simp only [step, hpc] at hl
      obtain ⟨htime, hl⟩ := Option.ite_none_right_eq_some.1 hl
      obtain rfl := Option.some.inj hl
      refine ⟨h.mbox, h.valid, fun timeout' elapsed' hpc' ↦ ?_⟩
      obtain ⟨rfl, rfl⟩ := LoopPc.waiting.inj hpc'
      rcases h.awaits _ _ hpc with hnil | ⟨t, ts, hts, ht, hne, -⟩
      · exact Or.inl hnil
      · exact Or.inr ⟨t, ts, hts, ht, hne, htime.resolve_left hne⟩
    | again | running =>
      simp only [step, hpc] at hl
      cases hl
  | wake timedOut =>
    cases hpc : s.pc with
    | waiting timeout elapsed =>
      simp only [step, hpc] at hl
      obtain ⟨-, hl⟩ := Option.ite_none_right_eq_some.1 hl
      exact h.ready_fetchSection (h.awaits _ _ hpc) hl
    | again | running =>
      simp only [step, hpc] at hl
      cases hl
  | again =>
    cases hpc : s.pc with
    | again =>
      simp only [step, hpc] at hl
      split at hl
      · next hnil => exact h.ready_fetchSection (Or.inl ⟨rfl, hnil⟩) hl
      · next t ts hts =>
        split_ifs at hl with hpos
        · have hne : t.time ≠ 0 := fun hzero ↦ absurd (hzero ▸ hpos) (by decide)
          exact h.ready_fetchSection (Or.inr ⟨t, ts, hts, rfl, hne, Nat.zero_le _⟩) hl
        · simp only [expire, hts, Option.some.injEq] at hl
          subst hl
          refine ⟨h.mbox, h.valid, fun timeout' elapsed' hpc' ↦ ?_⟩
          dsimp only at hpc'
          split_ifs at hpc'
    | waiting _ _ | running =>
      simp only [step, hpc] at hl
      cases hl
  | timeout msecs hd a | untimeout hd a =>
    obtain ⟨hpc, hl⟩ := Option.ite_none_right_eq_some.1 hl
    obtain rfl := Option.some.inj hl
    exact ⟨h.mbox, h.valid, fun _ _ hpc' ↦ absurd (hpc.symm.trans hpc') nofun⟩
  | done =>
    obtain ⟨hpc, hl⟩ := Option.ite_none_right_eq_some.1 hl
    obtain rfl := Option.some.inj hl
    exact ⟨h.mbox, h.valid, nofun⟩

theorem Inv.step (h : s.Inv) (hl : TcpipLoop.step plat l s = some s') : s'.Inv := by
  obtain ⟨hmbox, hvalid, haw⟩ := h.ready_step hl
  refine ⟨hmbox, hvalid, haw, fun f hf ↦ ?_⟩
  rcases h.step_effect hl with ⟨-, hrec, -⟩ | ⟨-, hrec, -⟩ | ⟨-, hrec, -⟩ | ⟨-, hrec, -⟩ |
    ⟨timeout, elapsed, hrec, -⟩ | ⟨t, elapsed, hrec, -, hle, -⟩
  case message =>
    rw [hrec, List.mem_append, List.mem_singleton] at hf
    rcases hf with hf | rfl
    · exact h.fetches f hf
    · exact Or.inl ⟨rfl, rfl⟩
  case timedOut =>
    rw [hrec, List.mem_append, List.mem_singleton] at hf
    rcases hf with hf | rfl
    · exact h.fetches f hf
    · exact Or.inr ⟨rfl, rfl, hle⟩
  all_goals exact h.fetches f (hrec ▸ hf)

theorem run_inv {size : ℤ} {ls : List (LoopLabel μ η α)}
    (h : runLabels (step plat) ls (init size) = some s) : s.Inv :=
  runLabels_invariant (I := fun s : TcpipLoop μ η α ↦ s.Inv) (inv_init size)
    (fun _ _ _ hs hl ↦ hs.step hl) h

/-- Every recorded fetch took from the timers what it had waited. -/
def Exact (s : TcpipLoop μ η α) : Prop := ∀ f ∈ s.fetches, f.elapsed = f.reduction

/-- **One step, condition and record**: a step meets the condition exactly when the fetch it records,
if any, is exact. -/
theorem Inv.exact_step (h : s.Inv) (hl : TcpipLoop.step plat l s = some s') :
    s'.Exact ↔ s.Exact ∧ Prompt plat s l := by
  have hsnoc : ∀ f, s'.fetches = s.fetches ++ [f] →
      (s'.Exact ↔ s.Exact ∧ f.elapsed = f.reduction) := fun f hf ↦ by
    simp [Exact, hf, or_imp, forall_and]
  rcases h.step_effect hl with ⟨hp, hrec, -⟩ | ⟨hp, hrec, -⟩ | ⟨hp, hrec, -⟩ | ⟨hp, hrec, -⟩ |
    ⟨timeout, elapsed, hrec, -, hp⟩ | ⟨t, elapsed, hrec, -, -, hp⟩
  case message => rw [hsnoc _ hrec, hp]
  case timedOut => rw [hsnoc _ hrec, hp]
  all_goals simp [Exact, hrec, hp]

/-! ### The loop goes on -/

omit [DecidableEq η] [DecidableEq α] in
theorem Inv.fetchSection_isSome (h : s.Inv) (haw : s.Awaits timeout elapsed)
    (hgive : next = .giveUp → timeout ≠ 0) (hdeq : next = .dequeue → s.mbox.count ≠ 0) :
    ∃ s', s.fetchSection timeout elapsed next = some s' := by
  cases next with
  | wait => exact ⟨_, rfl⟩
  | giveUp =>
    rcases haw with ⟨hzero, -⟩ | ⟨t, ts, hts, -⟩
    · exact absurd hzero (hgive rfl)
    · simp only [fetchSection, expire, hts]
      exact ⟨_, rfl⟩
  | dequeue =>
    obtain ⟨xs, hxs⟩ := h.mbox
    cases xs with
    | nil => exact absurd (by simp [hxs.count]) (hdeq rfl)
    | cons x xs =>
      obtain ⟨m, hm, -⟩ := hxs.dequeue_cons
      simp only [fetchSection, hm]
      exact ⟨_, rfl⟩

/-- A run meets the condition at every step exactly when every fetch it records is exact. -/
theorem run_exact_iff {size : ℤ} {ls : List (LoopLabel μ η α)}
    (h : runLabels (step plat) ls (init size) = some s) :
    (∀ ls' l s', ls' ++ [l] <+: ls → runLabels (step plat) ls' (init size) = some s' →
      Prompt plat s' l) ↔ s.Exact := by
  refine runLabels_induction (I := fun ls s ↦ (∀ ls' l s', ls' ++ [l] <+: ls →
    runLabels (step plat) ls' (init size) = some s' → Prompt plat s' l) ↔ s.Exact)
    ⟨fun _ ↦ nofun, fun _ ls' l s' hpre ↦ by simp at hpre⟩ (fun ls l s s' hs ih hl ↦ ?_) h
  rw [(run_inv hs).exact_step hl, ← ih]
  constructor
  · exact fun hall ↦ ⟨fun ls' l' s'' hpre ↦ hall ls' l' s'' (hpre.trans (List.prefix_append _ _)),
      hall ls l s (List.prefix_refl _) hs⟩
  · rintro ⟨hall, hlast⟩ ls' l' s'' hpre hs''
    rcases List.prefix_concat_iff.1 hpre with heq | hpre
    · obtain ⟨rfl, hl'⟩ := List.append_inj' heq rfl
      obtain rfl := Option.some.inj (hs.symm.trans hs'')
      obtain rfl := List.head_eq_of_cons_eq hl'
      exact hlast
    · exact hall ls' l' s'' hpre hs''

omit [DecidableEq η] [DecidableEq α] in
theorem waited_snoc {f : Fetch} (h : s'.fetches = s.fetches ++ [f]) :
    s'.waited = s.waited + f.elapsed := by
  simp [waited, h]

/-- The list tells when its timers are due, and none is due `2 ^ 32` ms ahead. -/
def Tells (s : TcpipLoop μ η α) : Prop :=
  Accurate s.waited s.timeouts ∧ ∀ x ∈ s.timeouts, x.due < s.waited + 2 ^ 32

/-- **As long as every fetch is exact, the list tells when its timers are due.** -/
theorem Inv.tells_step (h : s.Inv) (htells : s.Tells) (hl : TcpipLoop.step plat l s = some s')
    (hexact : s'.Exact) : s'.Tells := by
  obtain ⟨hacc, hbound⟩ := htells
  rcases h.step_effect hl with ⟨-, hrec, ht⟩ | ⟨-, hrec, msecs, hd, a, ht⟩ | ⟨-, hrec, hd, a, ht⟩ |
    ⟨-, hrec, t, ht, hzero⟩ | ⟨timeout, elapsed, hrec, ht, -⟩ | ⟨t, elapsed, hrec, ht, -, -⟩
  case message =>
    have hzero : elapsed = 0 := hexact _ (hrec ▸ List.mem_append_right _ List.mem_cons_self)
    rw [Tells, waited_snoc hrec, ht, hzero]
    exact ⟨hacc, hbound⟩
  case timedOut =>
    have hfull : elapsed = t.time.toNat :=
      hexact _ (hrec ▸ List.mem_append_right _ List.mem_cons_self)
    rw [ht] at hacc hbound
    have hdue : s'.waited = t.due := by
      rw [waited_snoc hrec, hacc.1]
      exact congrArg _ hfull
    refine ⟨hdue ▸ hacc.2, fun x hx ↦ ?_⟩
    have := hbound x (List.mem_cons_of_mem t hx)
    have := hacc.1
    omega
  case expire =>
    have hw : s'.waited = s.waited := by rw [waited, waited, hrec]
    rw [ht] at hacc hbound
    have hdue : s.waited = t.due := by simp [hacc.1, hzero]
    exact ⟨hw ▸ hdue ▸ hacc.2, fun x hx ↦ hw ▸ hbound x (List.mem_cons_of_mem t hx)⟩
  case quiet =>
    have hw : s'.waited = s.waited := by rw [waited, waited, hrec]
    rw [Tells, hw, ht]
    exact ⟨hacc, hbound⟩
  case register =>
    have hw : s'.waited = s.waited := by rw [waited, waited, hrec]
    rw [Tells, hw, ht]
    refine ⟨hacc.sysTimeout rfl, fun x hx ↦ ?_⟩
    have hmem := (map_due_sysTimeout.mem_iff.1 (List.mem_map_of_mem hx))
    rcases List.mem_cons.1 hmem with hx | hx
    · have hlt := msecs.isLt
      have hx' : x.due = s.waited + msecs.toNat := hx
      omega
    · obtain ⟨y, hy, hxy⟩ := List.mem_map.1 hx
      exact hxy ▸ hbound y hy
  case cancel =>
    have hw : s'.waited = s.waited := by rw [waited, waited, hrec]
    rw [Tells, hw, ht]
    refine ⟨hacc.sysUntimeout hbound, fun x hx ↦ ?_⟩
    obtain ⟨y, hy, hxy⟩ := List.mem_map.1 (map_due_sysUntimeout.subset (List.mem_map_of_mem hx))
    exact hxy ▸ hbound y hy

theorem run_tells {size : ℤ} {ls : List (LoopLabel μ η α)}
    (h : runLabels (step plat) ls (init size) = some s) (hexact : s.Exact) : s.Tells := by
  refine runLabels_induction (I := fun _ s ↦ s.Exact → s.Tells) (fun _ ↦ ⟨trivial, nofun⟩)
    (fun ls l s s' hs ih hl hexact ↦ ?_) h hexact
  exact (run_inv hs).tells_step (ih (((run_inv hs).exact_step hl).1 hexact).1) hl hexact

omit [DecidableEq η] [DecidableEq α] in
/-- If the totals agree and every fetch that did not time out returned what it had waited, then every
fetch is exact: what one fetch took too much, no other can make up for. -/
theorem Inv.exact_of_onSchedule (h : s.Inv) (hs : s.OnSchedule) : s.Exact := by
  have hle : ∀ f ∈ s.fetches, f.elapsed ≤ f.reduction := by
    intro f hf
    rcases h.fetches f hf with ⟨hret, -⟩ | ⟨-, hred, hel⟩
    · rcases hs.returned f hf with htimeout | hel
      · exact absurd (hret.symm.trans htimeout) (by decide)
      · simp [← hel, hret]
    · omega
  have hsum := hs.total
  unfold reduced waited at hsum
  intro f hf
  by_contra hne
  have hlt : (s.fetches.map Fetch.elapsed).sum < (s.fetches.map Fetch.reduction).sum :=
    List.sum_lt_sum _ _ hle ⟨f, hf, lt_of_le_of_ne (hle f hf) hne⟩
  omega

/-- **When the timers are on schedule.** In every run of the tcpip loop over the port's mailbox, with
messages arriving at any times, on both platforms: the fetches have reduced the first timer's time
by the time waited, each returned what it waited or `SYS_ARCH_TIMEOUT`, and no timer is left over
when its time has been waited, if and only if every timed wait that ended with a message there had
waited 0 ms and, on Windows, every other one had waited its full time. -/
theorem timers_on_schedule_iff (plat : Platform) (size : ℤ) (ls : List (LoopLabel μ η α))
    (s : TcpipLoop μ η α) (h : runLabels (step plat) ls (init size) = some s) :
    s.OnSchedule ↔ ∀ ls' l s', ls' ++ [l] <+: ls →
      runLabels (step plat) ls' (init size) = some s' → Prompt plat s' l := by
  have hinv := run_inv h
  rw [run_exact_iff h]
  refine ⟨hinv.exact_of_onSchedule, fun hexact ↦ ⟨?_, fun f hf ↦ ?_, fun x hx ↦ ?_⟩⟩
  · rw [reduced, waited, List.map_congr_left fun f hf ↦ (hexact f hf).symm]
  · rcases hinv.fetches f hf with ⟨hret, hred⟩ | ⟨hret, -⟩
    · right
      rw [hexact f hf, hret, hred]
      rfl
    · exact Or.inl hret
  · obtain ⟨hacc, -⟩ := run_tells h hexact
    cases hpc : s.pc with
    | waiting timeout elapsed =>
      rcases hinv.awaits timeout elapsed hpc with ⟨-, hnil⟩ | ⟨t, ts, hts, rfl, -, hle⟩
      · rw [hnil] at hx
        exact absurd hx List.not_mem_nil
      · rw [hts] at hacc hx
        have := hacc.head_le_due x hx
        show s.waited + elapsed ≤ x.due
        omega
    | again | running => exact hacc.le_due x hx

/-- Two timers and no messages: the first runs after 10 ms, and all timers are on schedule. -/
theorem timers_on_schedule_no_messages :
    ∃ s : TcpipLoop ℕ ℕ ℕ,
      runLabels (step .posix) ([.timeout 10 (some 1) 0, .timeout 25 (some 2) 0, .done, .again] ++
        List.replicate 10 .tick ++ [.wake true]) (init 8) = some s ∧
      (s.waited, s.timeouts.map SysTimeo.time, s.pc) = (10, [15], .running) ∧ s.OnSchedule := by
  refine exists_run_of_observe
    (fun s ↦ ((s.waited, s.timeouts.map SysTimeo.time, s.pc), s.fetches))
    ((10, [15], .running), [⟨10, 10, sysArchTimeout, 10⟩]) (by decide) fun s hs hobs ↦ ?_
  obtain ⟨hobs, hfetches⟩ := Prod.mk.inj hobs
  refine ⟨hobs, (timers_on_schedule_iff .posix 8 _ s hs).2 ((run_exact_iff hs).2 ?_)⟩
  rw [Exact, hfetches]
  decide

/-- **A timer is late under message traffic.** A timer of 10 ms is set; after 5 ms a message
arrives, and the fetch returns 0. The thread then waits another 10 ms before the timer runs, so that
at its end the timer is 5 ms overdue, and the fetches have reduced the timer's time by 10 ms in 15 ms. -/
theorem timer_late_under_traffic :
    ∃ s : TcpipLoop ℕ ℕ ℕ,
      runLabels (step .posix) ([.timeout 10 (some 1) 0, .done, .again] ++ List.replicate 5 .tick ++
        [.post 7 100, .wake false, .done, .again] ++ List.replicate 10 .tick) (init 8) = some s ∧
      (s.waited, s.reduced, s.pc, s.timeouts.map SysTimeo.due) = (5, 0, .waiting 10 10, [10]) ∧
      ¬ s.OnSchedule := by
  refine exists_run_of_observe
    (fun s ↦ (s.waited, s.reduced, s.pc, s.timeouts.map SysTimeo.due))
    (5, 0, .waiting 10 10, [10]) (by decide) fun s _ hobs ↦ ⟨hobs, fun hs ↦ ?_⟩
  simp only [Prod.mk.injEq] at hobs
  obtain ⟨hwaited, hreduced, -⟩ := hobs
  exact absurd (hreduced.symm.trans (hs.total.trans hwaited)) (by decide)

end TcpipLoop

end Lwip.Core
