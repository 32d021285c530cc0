import LwipPoc.Core.Timers
import LwipPoc.Foundation.Execution

/-!
# The timers of a main loop

In a build without an operating system the main loop calls `sys_check_timeouts`, and this function
learns from `sys_now` how much time has passed: `timeouts_last_time` is the moment that the first
difference on the list counts from. But

* `sys_timeout` puts a timer on the list as if this moment were **now**, and
* a call that runs timers sets it to now, and **forgets the time that is left over**, which it has not
  taken from the timers that stay on the list.

So a timer may run before it is due, and may stay on the list when it is. Both is seen in
`timer_early_and_late`. It cannot happen in the runs whose steps are `Punctual`: registrations are made at
the very moment that the list counts from, and a call that runs timers is made when the last of them is
due, or leaves none on the list (`timers_on_time`).

The clock is one of milliseconds without an end, of which `sys_now` shows the last 32 bits. A call of
`sys_check_timeouts` is a step for its begin, one for every timer it runs, and one for its end; what
the handlers call, and the time they take, lies between these.
-/

namespace Lwip.Core

open SysTimeo

variable {η α : Type*}

/-- What a timer was registered for. -/
structure Registration (η α : Type*) where
  h : Option η
  arg : α
  due : ℕ
  deriving DecidableEq

/-- The registration of a timer on the list. -/
def SysTimeo.registration (t : SysTimeo η α) : Registration η α := ⟨t.h, t.arg, t.due⟩

/-- A call of `sys_check_timeouts` that is going on. -/
structure CheckCall where
  now : U32
  diff : U32
  /-- It has run a timer. -/
  hadOne : Bool
  /-- When it was made. -/
  moment : ℕ
  deriving DecidableEq, Repr

/-- The variables of the module, and the history of its timers. -/
structure MainLoop (η α : Type*) where
  /-- The list from `next_timeout`. -/
  timeouts : List (SysTimeo η α)
  /-- `timeouts_last_time`. -/
  lastTime : U32
  call : Option CheckCall
  clock : ℕ
  registered : List (Registration η α)
  cancelled : List (Registration η α)
  /-- The timers that ran, and when the calls were made that ran them. -/
  ran : List (Registration η α × ℕ)
  /-- The moment that the list has been worked off to: that of the last call that ran timers, and in
  such a call when the last of them was due. -/
  base : ℕ

/-- The steps: time passes, a timer is registered or cancelled, and `sys_check_timeouts` is called, runs a
timer, and returns. -/
inductive MainLabel (η α : Type*) where
  | wait (msecs : ℕ)
  | timeout (msecs : U32) (handler : Option η) (arg : α)
  | untimeout (handler : Option η) (arg : α)
  | check
  | run
  | done

namespace MainLoop

/-- `sys_now`. -/
def sysNow (s : MainLoop η α) : U32 := BitVec.ofNat 32 s.clock

/-- After `sys_timeouts_init`, before the first timer. -/
def init (clock : ℕ) : MainLoop η α := ⟨[], BitVec.ofNat 32 clock, none, clock, [], [], [], clock⟩

/-- The begin of `sys_check_timeouts`. -/
def sysCheckTimeouts (s : MainLoop η α) : Option (MainLoop η α) :=
  match s.call with
  | some _ => none
  | none =>
    if s.timeouts = [] then some s
    else some { s with call := some ⟨s.sysNow, s.sysNow - s.lastTime, false, s.clock⟩ }

/-- The first timer has expired, and is run. -/
def runTimeout (s : MainLoop η α) : Option (MainLoop η α) :=
  match s.call, s.timeouts with
  | some c, t :: ts =>
    if t.time ≤ c.diff then
      some { s with
        timeouts := ts
        lastTime := c.now
        call := some { c with diff := c.diff - t.time, hadOne := true }
        ran := s.ran ++ [(t.registration, c.moment)]
        base := t.due }
    else none
  | _, _ => none

/-- No timer has expired, and `sys_check_timeouts` returns. -/
def checkDone (s : MainLoop η α) : Option (MainLoop η α) :=
  match s.call with
  | none => none
  | some c =>
    if (s.timeouts.head?.all fun t ↦ c.diff < t.time) = true then
      some { s with call := none, base := if c.hadOne = true then c.moment else s.base }
    else none

variable [DecidableEq η] [DecidableEq α]

/-- One step. -/
def step : MainLabel η α → MainLoop η α → Option (MainLoop η α)
  | .wait msecs, s => some { s with clock := s.clock + msecs }
  | .timeout msecs handler arg, s =>
    let timeout : SysTimeo η α := ⟨msecs, handler, arg, s.clock + msecs.toNat⟩
    some { s with
      timeouts := sysTimeout timeout s.timeouts
      registered := s.registered ++ [timeout.registration] }
  | .untimeout handler arg, s =>
    some { s with
      timeouts := sysUntimeout handler arg s.timeouts
      cancelled := s.cancelled ++
        ((s.timeouts.find? fun t ↦ t.h = handler ∧ t.arg = arg).map registration).toList }
  | .check, s => s.sysCheckTimeouts
  | .run, s => s.runTimeout
  | .done, s => s.checkDone

/-- **The condition**: a timer is registered at the moment that the list counts from, a call is made
before `sys_now` gets there again, and a call that has run timers was made when the last of them was
due, or leaves none. -/
def Punctual : MainLabel η α → MainLoop η α → Prop
  | .timeout _ _ _, s => s.clock = s.base
  | .check, s => s.clock < s.base + 2 ^ 32
  | .done, s => ∀ c ∈ s.call, c.hadOne = true → s.base = c.moment ∨ s.timeouts = []
  | _, _ => True

instance : (l : MainLabel η α) → (s : MainLoop η α) → Decidable (Punctual l s)
  | .wait _, _ => inferInstanceAs (Decidable True)
  | .timeout _ _ _, _ => inferInstanceAs (Decidable (_ = _))
  | .untimeout _ _, _ => inferInstanceAs (Decidable True)
  | .check, _ => inferInstanceAs (Decidable (_ < _))
  | .run, _ => inferInstanceAs (Decidable True)
  | .done, s =>
    match hc : s.call with
    | none => isTrue fun c h ↦ by rw [hc] at h; cases h
    | some c => decidable_of_iff (c.hadOne = true → s.base = c.moment ∨ s.timeouts = []) <| by
        rw [Punctual, hc]
        simp

/-! ### What holds of punctual runs -/

/-- **The invariant**: from the base, the differences tell when the timers are due; `timeouts_last_time` is
the base, and the call that is going on has that much time left as is between the two. -/
structure Inv (s : MainLoop η α) : Prop where
  accurate : Accurate s.base s.timeouts
  bound : ∀ t ∈ s.timeouts, t.due < s.base + 2 ^ 32
  idle : s.call = none → s.lastTime = BitVec.ofNat 32 s.base ∧ s.base ≤ s.clock
  busy : ∀ c ∈ s.call, s.base + c.diff.toNat = c.moment ∧ c.moment ≤ s.clock ∧
    c.now = BitVec.ofNat 32 c.moment ∧
    s.lastTime = if c.hadOne = true then c.now else BitVec.ofNat 32 s.base
  early : ∀ x ∈ s.ran, x.1.due ≤ x.2
  conserved : s.registered.Perm (s.ran.map Prod.fst ++ s.cancelled ++ s.timeouts.map registration)

variable {s s' : MainLoop η α} {ls : List (MainLabel η α)} {clock : ℕ}

omit [DecidableEq η] [DecidableEq α] in
theorem inv_init (clock : ℕ) : Inv (init clock : MainLoop η α) where
  accurate := trivial
  bound := nofun
  idle := fun _ ↦ ⟨rfl, le_refl _⟩
  busy := nofun
  early := nofun
  conserved := List.Perm.refl _

omit [DecidableEq η] [DecidableEq α] in
/-- Time passes. -/
theorem Inv.wait (hs : Inv s) (n : ℕ) : Inv { s with clock := s.clock + n } where
  accurate := hs.accurate
  bound := hs.bound
  idle := fun hc ↦ ⟨(hs.idle hc).1, (hs.idle hc).2.trans (Nat.le_add_right _ _)⟩
  busy := fun c hc ↦
    have h := hs.busy c hc
    ⟨h.1, h.2.1.trans (Nat.le_add_right _ _), h.2.2⟩
  early := hs.early
  conserved := hs.conserved

/-- A registration at the base. -/
theorem Inv.timeout {msecs : U32} {handler : Option η} {arg : α} (hs : Inv s)
    (hpunctual : s.clock = s.base) (hstep : step (.timeout msecs handler arg) s = some s') : Inv s' := by
  cases hstep
  set timeout : SysTimeo η α := ⟨msecs, handler, arg, s.clock + msecs.toNat⟩ with htimeout
  have hdue : timeout.due = s.base + timeout.time.toNat := by
    rw [htimeout, ← hpunctual]
  have hregistration : ((sysTimeout timeout s.timeouts).map registration).Perm
      (timeout.registration :: s.timeouts.map registration) := map_sysTimeout fun _ _ ↦ rfl
  refine ⟨hs.accurate.sysTimeout hdue, fun t ht ↦ ?_, hs.idle, hs.busy, hs.early, ?_⟩
  · have hmem : t.due ∈ timeout.due :: s.timeouts.map due :=
      map_due_sysTimeout.mem_iff.1 (List.mem_map_of_mem ht)
    rcases List.mem_cons.1 hmem with hnew | hold
    · have := msecs.isLt
      rw [hnew, hdue]
      exact Nat.add_lt_add_left this _
    · obtain ⟨u, hu, heq⟩ := List.mem_map.1 hold
      exact heq ▸ hs.bound u hu
  · calc List.Perm (s.registered ++ [timeout.registration])
          (timeout.registration :: s.registered) := List.perm_append_comm
      List.Perm _ (timeout.registration ::
          (s.ran.map Prod.fst ++ s.cancelled ++ s.timeouts.map registration)) := hs.conserved.cons _
      List.Perm _ (s.ran.map Prod.fst ++ s.cancelled ++
          timeout.registration :: s.timeouts.map registration) := List.perm_middle.symm
      List.Perm _ _ := hregistration.symm.append_left _

/-- A cancellation. -/
theorem Inv.untimeout {handler : Option η} {arg : α} (hs : Inv s)
    (hstep : step (.untimeout handler arg) s = some s') : Inv s' := by
  cases hstep
  have hregistration : ((sysUntimeout handler arg s.timeouts).map registration ++
      ((s.timeouts.find? fun t ↦ t.h = handler ∧ t.arg = arg).map registration).toList).Perm
      (s.timeouts.map registration) := map_sysUntimeout fun _ _ ↦ rfl
  refine ⟨hs.accurate.sysUntimeout hs.bound, fun t ht ↦ ?_, hs.idle, hs.busy, hs.early, ?_⟩
  · obtain ⟨u, hu, heq⟩ := List.mem_map.1 (map_due_sysUntimeout.subset (List.mem_map_of_mem ht))
    exact heq ▸ hs.bound u hu
  · calc List.Perm s.registered
          (s.ran.map Prod.fst ++ s.cancelled ++ s.timeouts.map registration) := hs.conserved
      List.Perm _ (s.ran.map Prod.fst ++ s.cancelled ++ _) := hregistration.symm.append_left _
      List.Perm _ (s.ran.map Prod.fst ++ s.cancelled ++ _) := List.perm_append_comm.append_left _
      List.Perm _ _ := by rw [← List.append_assoc, ← List.append_assoc]

omit [DecidableEq η] [DecidableEq α] in
/-- A call begins, not too late. -/
theorem Inv.check (hs : Inv s) (hpunctual : s.clock < s.base + 2 ^ 32)
    (hstep : s.sysCheckTimeouts = some s') : Inv s' := by
  rw [sysCheckTimeouts] at hstep
  split at hstep
  · cases hstep
  · next hidle =>
    split_ifs at hstep
    · cases hstep
      exact hs
    · cases hstep
      obtain ⟨hlast, hle⟩ := hs.idle hidle
      refine ⟨hs.accurate, hs.bound, nofun, fun c hc ↦ ?_, hs.early, hs.conserved⟩
      obtain rfl := Option.some.inj hc
      refine ⟨?_, le_refl _, rfl, hlast⟩
      show s.base + (BitVec.ofNat 32 s.clock - s.lastTime).toNat = s.clock
      rw [hlast, BitVec.toNat_sub, BitVec.toNat_ofNat, BitVec.toNat_ofNat]
      omega

omit [DecidableEq η] [DecidableEq α] in
/-- **A timer is run**, and not before it is due. -/
theorem Inv.run (hs : Inv s) (hstep : s.runTimeout = some s') : Inv s' := by
  rw [runTimeout.eq_def] at hstep
  split at hstep
  swap
  · cases hstep
  next c t ts hcall htimeouts =>
  split_ifs at hstep with hle
  cases hstep
  obtain ⟨hdiff, hmoment, hnow, hlast⟩ := hs.busy c hcall
  have hacc := hs.accurate
  have hbound := hs.bound
  rw [htimeouts] at hacc hbound
  obtain ⟨hdue, hrest⟩ := hacc
  have hle' : t.time.toNat ≤ c.diff.toNat := hle
  refine ⟨hrest, fun u hu ↦ ?_, nofun, fun c' hc' ↦ ?_, fun x hx ↦ ?_, ?_⟩
  · have := hbound u (List.mem_cons_of_mem t hu)
    show u.due < t.due + 2 ^ 32
    omega
  · obtain rfl := Option.some.inj hc'
    refine ⟨?_, hmoment, hnow, rfl⟩
    show t.due + (c.diff - t.time).toNat = c.moment
    rw [BitVec.toNat_sub_of_le hle]
    omega
  · rcases List.mem_append.1 hx with hx | hx
    · exact hs.early x hx
    · rw [List.mem_singleton.1 hx]
      show t.due ≤ c.moment
      omega
  · have hcons := hs.conserved
    rw [htimeouts, List.map_cons] at hcons
    refine hcons.trans ?_
    rw [List.map_append, List.map_singleton, List.append_assoc, List.append_assoc, List.append_assoc]
    exact List.perm_middle.append_left _

omit [DecidableEq η] [DecidableEq α] in
/-- What the end of a call is, and when it comes. -/
theorem checkDone_eq_some : s.checkDone = some s' ↔
    ∃ c, s.call = some c ∧ (∀ t ∈ s.timeouts.head?, c.diff < t.time) ∧
      s' = { s with call := none, base := if c.hadOne = true then c.moment else s.base } := by
  rw [checkDone]
  cases s.call with
  | none => simp
  | some c =>
    cases s.timeouts.head? with
    | none => simp [eq_comm (b := s')]
    | some t => simp [eq_comm (b := s')]

omit [DecidableEq η] [DecidableEq α] in
/-- When a call ends, none of the timers that are left is due. -/
theorem Inv.not_due (hs : Inv s) {c : CheckCall} (hc : s.call = some c)
    (hstep : s.checkDone = some s') : ∀ t ∈ s.timeouts, c.moment < t.due := by
  obtain ⟨c', hc', hhead, -⟩ := checkDone_eq_some.1 hstep
  obtain rfl := Option.some.inj (hc.symm.trans hc')
  obtain ⟨hdiff, -⟩ := hs.busy c hc
  have hacc := hs.accurate
  cases htimeouts : s.timeouts with
  | nil => simp
  | cons t ts =>
    rw [htimeouts] at hacc hhead
    have hlt : c.diff.toNat < t.time.toNat := hhead t rfl
    intro u hu
    have := hacc.head_le_due u hu
    omega

omit [DecidableEq η] [DecidableEq α] in
/-- A call ends. -/
theorem Inv.done (hs : Inv s)
    (hpunctual : ∀ c ∈ s.call, c.hadOne = true → s.base = c.moment ∨ s.timeouts = [])
    (hstep : s.checkDone = some s') : Inv s' := by
  obtain ⟨c, hcall, -, rfl⟩ := checkDone_eq_some.1 hstep
  obtain ⟨hdiff, hmoment, hnow, hlast⟩ := hs.busy c hcall
  by_cases hone : c.hadOne = true
  · rw [if_pos hone] at hlast
    refine ⟨?_, ?_, fun _ ↦ ?_, nofun, hs.early, hs.conserved⟩
    · -- nothing is left over, or no timer that it could matter to
      rw [if_pos hone]
      rcases hpunctual c hcall hone with hbase | hnil
      · exact hbase ▸ hs.accurate
      · show Accurate c.moment s.timeouts
        rw [hnil]
        trivial
    · rw [if_pos hone]
      intro t ht
      have := hs.bound t ht
      show t.due < c.moment + 2 ^ 32
      omega
    · rw [if_pos hone]
      exact ⟨hlast.trans hnow, hmoment⟩
  · rw [if_neg hone] at hlast
    refine ⟨?_, ?_, fun _ ↦ ?_, nofun, hs.early, hs.conserved⟩
    · rw [if_neg hone]
      exact hs.accurate
    · rw [if_neg hone]
      exact hs.bound
    · rw [if_neg hone]
      exact ⟨hlast, by show s.base ≤ s.clock; omega⟩

theorem inv_of_run (hrun : runLabels (guardStep Punctual step) ls (init clock) = some s) : Inv s := by
  refine runLabels_invariant (inv_init clock) (fun l t t' ht hstep ↦ ?_) hrun
  obtain ⟨hpunctual, hstep⟩ := guardStep_eq_some.1 hstep
  cases l with
  | wait n =>
    cases hstep
    exact ht.wait n
  | timeout msecs handler arg => exact ht.timeout hpunctual hstep
  | untimeout handler arg => exact ht.untimeout hstep
  | check => exact ht.check hpunctual hstep
  | run => exact ht.run hstep
  | done => exact ht.done hpunctual hstep

/-- **Timers on time**, in every run whose steps are punctual: none is run by a call that was made before it
is due; when a call returns, none is left on the list that is due; and what was registered is what ran,
what was cancelled, and what is on the list. -/
theorem timers_on_time (hrun : runLabels (guardStep Punctual step) ls (init clock) = some s) :
    (∀ x ∈ s.ran, x.1.due ≤ x.2) ∧
    (∀ c ∈ s.call, ∀ s', step .done s = some s' → ∀ t ∈ s'.timeouts, c.moment < t.due) ∧
    s.registered.Perm (s.ran.map Prod.fst ++ s.cancelled ++ s.timeouts.map registration) := by
  have hs := inv_of_run hrun
  refine ⟨hs.early, fun c hc s' hdone ↦ ?_, hs.conserved⟩
  have hsame : s'.timeouts = s.timeouts := by
    obtain ⟨_, _, _, rfl⟩ := checkDone_eq_some.1 hdone
    rfl
  rw [hsame]
  exact hs.not_due hc hdone

/-! ### Two timers -/

/-- Two timers of 10 and 30 ms, and a call when the first one is due. -/
theorem timers_on_time_two : ∃ s : MainLoop ℕ ℕ, runLabels (guardStep Punctual step)
      [.timeout 10 (some 1) 0, .timeout 30 (some 2) 0, .wait 10, .check, .run] (init 0) = some s ∧
    s.ran = [(⟨some 1, 0, 10⟩, 10)] ∧ (∀ x ∈ s.ran, x.1.due ≤ x.2) := by
  refine exists_run_of_observe (fun s ↦ s.ran) [(⟨some 1, 0, 10⟩, 10)] (by decide)
    fun s hs hobs ↦ ⟨hobs, (timers_on_time hs).1⟩

/-- **Early and late**: 50 ms after the last call a timer of 100 ms is registered, and runs 50 ms later; and of
two timers of 10 and 30 ms, with calls after 25 and 30 ms, the second is still on the list at the end. -/
theorem timer_early_and_late :
    (∃ s : MainLoop ℕ ℕ, runLabels step
        [.wait 50, .timeout 100 (some 1) 0, .wait 50, .check, .run] (init 0) = some s ∧
      s.ran = [(⟨some 1, 0, 150⟩, 100)]) ∧
    ∃ s : MainLoop ℕ ℕ, runLabels step
        [.timeout 10 (some 1) 0, .timeout 30 (some 2) 0, .wait 25, .check, .run, .done, .wait 5, .check,
          .done] (init 0) = some s ∧
      s.clock = 30 ∧ s.timeouts.map SysTimeo.due = [30] :=
  ⟨exists_run_of_observe (fun s ↦ s.ran) _ (by decide) fun _ _ hobs ↦ hobs,
    exists_run_of_observe (fun s ↦ (s.clock, s.timeouts.map SysTimeo.due)) (30, [30])
      (by decide) fun _ _ hobs ↦ Prod.mk.inj hobs⟩

end MainLoop

end Lwip.Core
