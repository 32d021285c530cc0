import LwipPoc.Port.TimerList

/-!
# The timer thread and its callers

`timer_thread_fn` as a machine — every operation it makes on `g_time_lock` and on the condition
variable is a step of its own — together with any number of threads that call `sys_timeout` and
`sys_untimeout`. Handlers run on the timer thread and may call both: thread `none` is the timer
thread inside a handler.

A caller's locked section is one step, enabled while the timer thread does not hold the lock. The
part of `sys_timeout` before the lock is a step too, so a filled entry may wait for the lock while
anything else happens. The clock is an arbitrary value that an arbitrary step may change.

**A wait without the lock** is undefined behaviour in both APIs, and `timer_thread_fn` starts one
whenever it finds an overdue head at the top of its loop. The machine then reads the code in its
favour: the wait disturbs nobody and returns with the lock held. So the conservation results below
hold of every interleaving, and only the results about the lock itself see the difference.

`timers_conserved` says that every registered entry is pending, popped or cancelled, exactly one of
these and once.
-/

namespace Lwip.Port

open CellHeap

variable {τ η α : Type*}

/-- Where the timer thread stands in `timer_thread_fn`. -/
inductive WorkerPc where
  /-- At the top of the outer loop, about to read the clock. -/
  | top
  /-- About to take the lock. -/
  | enter (now : U32)
  /-- With the lock, about to look at the head. -/
  | check (now : U32)
  /-- The head is overdue: about to unlock. -/
  | overdue (now : U32)
  /-- About to start the condition wait. -/
  | sleep (now waitMs : U32)
  /-- In the condition wait. -/
  | asleep
  /-- Back from the wait, about to unlock. -/
  | awake
  /-- At the top of the drain loop, about to read the clock. -/
  | drainTop
  /-- About to take the lock in the drain loop. -/
  | drainEnter (now : U32)
  /-- With the lock, about to test the head for expiry. -/
  | drainCheck (now : U32)
  /-- Nothing is due: about to unlock and leave the drain loop. -/
  | leave
  /-- The entry `e` is popped: about to unlock. -/
  | popped (e : ℕ)
  /-- Unlocked, about to call the handler of `e`. -/
  | call (e : ℕ)
  /-- In the handler of `e`, about to free it. -/
  | handling (e : ℕ)
  deriving DecidableEq, Repr

/-- The entry in the timer thread's hands. -/
def WorkerPc.inHand : WorkerPc → Option ℕ
  | .popped e => some e
  | .call e => some e
  | .handling e => some e
  | _ => none

/-- The entry in the timer thread's hands whose handler has not started. -/
def WorkerPc.unstarted : WorkerPc → Option ℕ
  | .popped e => some e
  | .call e => some e
  | _ => none

theorem WorkerPc.inHand_of_unstarted {pc : WorkerPc} {e : ℕ} (h : pc.unstarted = some e) :
    pc.inHand = some e := by
  cases pc <;> first | exact h | cases h

/-- What the history records. -/
inductive TimerEvent (η α : Type*) where
  /-- `sys_timeout` put the entry on the list. -/
  | registered (x : TimeEntry η α)
  /-- `sys_untimeout(h, a)` removed the entries. -/
  | cancelled (h : η) (a : α) (xs : List (TimeEntry η α))
  /-- The timer thread popped the entry, having read `now`. -/
  | popped (now : U32) (x : TimeEntry η α)
  /-- The timer thread started the entry's handler. -/
  | started (x : TimeEntry η α)

/-- The timer list, the clock, the timer thread, its callers, and the history. -/
structure TimerSystem (τ η α : Type*) where
  /-- The list and the heap of entries. -/
  timers : TimerList η α
  /-- What `sys_now` returns. -/
  clock : U32
  /-- The timer thread holds `g_time_lock`. -/
  held : Bool
  /-- Where the timer thread stands. -/
  pc : WorkerPc
  /-- The entry a caller of `sys_timeout` has filled and not yet linked in. -/
  calls : Option τ → Option ℕ
  /-- The history. -/
  log : List (TimerEvent η α)

/-- The steps. `e` is the result of `malloc`. -/
inductive TimerLabel (τ η α : Type*) where
  | clock (now : U32)
  | alloc (t : Option τ) (msecs : U32) (handler : Option η) (arg : α) (e : Option ℕ)
  | insert (t : Option τ)
  | untimeout (t : Option τ) (handler : Option η) (arg : α)
  | worker

namespace TimerSystem

/-- The system before any call. -/
def init (clock : U32) : TimerSystem τ η α where
  timers := .empty
  clock := clock
  held := false
  pc := .top
  calls _ := none
  log := []

/-- The entries on the list. -/
def pending (s : TimerSystem τ η α) : List (TimeEntry η α) := s.timers.pending

/-- A thread may make a call: another thread always, the timer thread only from a handler. -/
def active (s : TimerSystem τ η α) (t : Option τ) : Bool :=
  t.isSome || match s.pc with
    | .handling _ => true
    | _ => false

/-- The next step of `timer_thread_fn`. -/
def workerStep (s : TimerSystem τ η α) : Option (TimerSystem τ η α) :=
  match s.pc with
  | .top => some { s with pc := .enter s.clock }
  | .enter now => if s.held then none else some { s with held := true, pc := .check now }
  | .check now =>
    match s.timers.list.root with
    | none => some { s with pc := .sleep now 1000 }
    | some e =>
      (s.timers.list.heap.lookup e).map fun c ↦
        if c.val.due now then { s with pc := .overdue now }
        else { s with pc := .sleep now (c.val.whenMs - now) }
  | .overdue now => some { s with held := false, pc := .sleep now 1000 }
  | .sleep _ _ => some { s with held := false, pc := .asleep }
  | .asleep => if s.held then none else some { s with held := true, pc := .awake }
  | .awake => some { s with held := false, pc := .drainTop }
  | .drainTop => some { s with pc := .drainEnter s.clock }
  | .drainEnter now => if s.held then none else some { s with held := true, pc := .drainCheck now }
  | .drainCheck now =>
    match s.timers.popDue now with
    | none => some { s with pc := .leave }
    | some (e, timers) =>
      (timers.list.heap.lookup e).map fun c ↦
        { s with timers := timers, pc := .popped e, log := s.log ++ [.popped now c.val] }
  | .leave => some { s with held := false, pc := .top }
  | .popped e => some { s with held := false, pc := .call e }
  | .call e =>
    (s.timers.list.heap.lookup e).map fun c ↦
      { s with pc := .handling e, log := s.log ++ [.started c.val] }
  | .handling e =>
    if s.calls none = none then some { s with timers := s.timers.freeEntry e, pc := .drainTop }
    else none

/-! ### The history -/

/-- The entries registered, in order. -/
def regs (log : List (TimerEvent η α)) : List (TimeEntry η α) :=
  log.filterMap fun
    | .registered x => some x
    | _ => none

/-- The entries popped, in order. -/
def pops (log : List (TimerEvent η α)) : List (TimeEntry η α) :=
  log.filterMap fun
    | .popped _ x => some x
    | _ => none

/-- The entries cancelled, in order. -/
def cancels (log : List (TimerEvent η α)) : List (TimeEntry η α) :=
  log.flatMap fun
    | .cancelled _ _ xs => xs
    | _ => []

theorem mem_regs_iff {log : List (TimerEvent η α)} {x : TimeEntry η α} :
    x ∈ regs log ↔ .registered x ∈ log := by
  simp only [regs, List.mem_filterMap]
  constructor
  · rintro ⟨ev, hev, hx⟩
    cases ev <;> simp_all
  · exact fun h ↦ ⟨_, h, rfl⟩

/-! ### The timer thread's steps, inverted -/

variable {s s' : TimerSystem τ η α} {xs : List (ℕ × TimeEntry η α)}

/-- **What a step of the timer thread can do** to the list and to the history: nothing, pop a due
head, start a handler, or free the entry in its hands. -/
theorem workerStep_cases (h : s.workerStep = some s') :
    (s'.timers = s.timers ∧ s'.calls = s.calls ∧ s'.log = s.log ∧ s'.pc.inHand = s.pc.inHand ∧
      s'.pc.unstarted = s.pc.unstarted) ∨
    (∃ now e timers c, s.pc = .drainCheck now ∧ s.timers.popDue now = some (e, timers) ∧
      timers.list.heap.lookup e = some c ∧
      s' = { s with timers := timers, pc := .popped e, log := s.log ++ [.popped now c.val] }) ∨
    (∃ e c, s.pc = .call e ∧ s.timers.list.heap.lookup e = some c ∧
      s' = { s with pc := .handling e, log := s.log ++ [.started c.val] }) ∨
    (∃ e, s.pc = .handling e ∧
      s' = { s with timers := s.timers.freeEntry e, pc := .drainTop }) := by
  unfold workerStep at h
  split at h
  case h_3 now hpc =>
    -- the look at the head moves the program counter only
    refine Or.inl ?_
    split at h
    · obtain rfl := Option.some.inj h
      exact ⟨rfl, rfl, rfl, by rw [hpc]; rfl, by rw [hpc]; rfl⟩
    · obtain ⟨c, -, rfl⟩ := Option.map_eq_some_iff.1 h
      split <;> exact ⟨rfl, rfl, rfl, by rw [hpc]; rfl, by rw [hpc]; rfl⟩
  case h_10 now hpc =>
    split at h
    · obtain rfl := Option.some.inj h
      exact Or.inl ⟨rfl, rfl, rfl, by rw [hpc]; rfl, by rw [hpc]; rfl⟩
    case h_2 e timers hpop =>
      obtain ⟨c, hc, rfl⟩ := Option.map_eq_some_iff.1 h
      exact Or.inr (Or.inl ⟨now, e, timers, c, hpc, hpop, hc, rfl⟩)
  case h_13 e hpc =>
    obtain ⟨c, hc, rfl⟩ := Option.map_eq_some_iff.1 h
    exact Or.inr (Or.inr (Or.inl ⟨e, c, hpc, hc, rfl⟩))
  case h_14 e hpc =>
    split at h
    · obtain rfl := Option.some.inj h
      exact Or.inr (Or.inr (Or.inr ⟨e, hpc, rfl⟩))
    · cases h
  all_goals
    rename_i hpc
    refine Or.inl ?_
    first
    | (obtain rfl := Option.some.inj h
       exact ⟨rfl, rfl, rfl, by rw [hpc]; rfl, by rw [hpc]; rfl⟩)
    | (split at h
       · cases h
       · obtain rfl := Option.some.inj h
         exact ⟨rfl, rfl, rfl, by rw [hpc]; rfl, by rw [hpc]; rfl⟩)

/-! ### The invariant -/

/-- **The invariant**: the cells on the list, the cells of callers on their way to it and the cell
in the timer thread's hands are all different and allocated; registration numbers are given out in
order; and every registered entry is pending, popped or cancelled. -/
structure Inv (s : TimerSystem τ η α) (xs : List (ℕ × TimeEntry η α)) : Prop where
  /-- The cells on the list. -/
  holds : s.timers.list.Holds xs
  /-- A caller's entry is allocated and not on the list. -/
  calls_apart : ∀ t e, s.calls t = some e → e ∈ s.timers.list.heap ∧ e ∉ xs.map Prod.fst
  /-- No two callers share an entry. -/
  calls_inj : ∀ t t' e, s.calls t = some e → s.calls t' = some e → t = t'
  /-- The entry in the timer thread's hands was popped and is still allocated. -/
  hand : ∀ e, s.pc.inHand = some e →
    ∃ x q, s.timers.list.heap.lookup e = some ⟨x, q⟩ ∧ x ∈ pops s.log
  /-- It is neither on the list nor a caller's. -/
  hand_apart : ∀ e, s.pc.inHand = some e → e ∉ xs.map Prod.fst ∧ ∀ t, s.calls t ≠ some e
  /-- Registration numbers are given out in order. -/
  serials : (regs s.log).map TimeEntry.serial = List.range s.timers.serial
  /-- Nothing is lost and nothing is duplicated. -/
  conserved : (regs s.log).Perm (xs.map Prod.snd ++ pops s.log ++ cancels s.log)
  /-- Only due entries are popped. -/
  due : ∀ now x, .popped now x ∈ s.log → x.due now = true

theorem inv_init (clock : U32) : (init clock : TimerSystem τ η α).Inv [] where
  holds := rfl
  calls_apart _ _ h := absurd h (by simp [init])
  calls_inj _ _ _ h := absurd h (by simp [init])
  hand _ h := absurd h (by simp [init, WorkerPc.inHand])
  hand_apart _ h := absurd h (by simp [init, WorkerPc.inHand])
  serials := rfl
  conserved := List.Perm.refl _
  due _ _ h := absurd h (by simp [init])

/-- A step that moves only program counters, the clock and the lock. -/
theorem Inv.of_eq (h : s.Inv xs) (htimers : s'.timers = s.timers) (hcalls : s'.calls = s.calls)
    (hlog : s'.log = s.log) (hhand : s'.pc.inHand = s.pc.inHand) : s'.Inv xs := by
  constructor
  · rw [htimers]; exact h.holds
  · rw [htimers, hcalls]; exact h.calls_apart
  · rw [hcalls]; exact h.calls_inj
  · rw [htimers, hlog, hhand]; exact h.hand
  · rw [hcalls, hhand]; exact h.hand_apart
  · rw [htimers, hlog]; exact h.serials
  · rw [hlog]; exact h.conserved
  · rw [hlog]; exact h.due

/-- The pop moves the head from the list into the timer thread's hands. -/
theorem Inv.pop {now : U32} {e : ℕ} {timers : TimerList η α} {c : Cell (TimeEntry η α)}
    (h : s.Inv xs) (hpop : s.timers.popDue now = some (e, timers))
    (hc : timers.list.heap.lookup e = some c) :
    ∃ ys, s.pending = c.val :: ys.map Prod.snd ∧
      Inv { s with timers := timers, pc := .popped e, log := s.log ++ [.popped now c.val] } ys := by
  cases xs with
  | nil =>
    rw [TimerList.popDue_nil h.holds] at hpop
    cases hpop
  | cons y ys =>
    obtain ⟨a, x⟩ := y
    obtain ⟨r, hr, hys, hpop'⟩ := TimerList.popDue_cons h.holds now
    have hnd := h.holds.nodup
    rw [List.map_cons, List.nodup_cons] at hnd
    rw [hpop] at hpop'
    split at hpop'
    case isFalse => cases hpop'
    case isTrue hdue =>
      obtain ⟨rfl, rfl⟩ := Prod.mk.inj (Option.some.inj hpop')
      have hcx : c = ⟨x, r⟩ := Option.some.inj (hc.symm.trans hr)
      subst hcx
      refine ⟨ys, TimerList.pending_eq h.holds, ⟨hys, ?_, h.calls_inj, ?_, ?_, ?_, ?_, ?_⟩⟩
      · intro t b hb
        have hb' := h.calls_apart t b hb
        rw [List.map_cons, List.mem_cons, not_or] at hb'
        exact ⟨hb'.1, hb'.2.2⟩
      · rintro b hb
        obtain rfl := Option.some.inj (hb : some e = some b)
        exact ⟨x, r, hr, by simp [pops]⟩
      · rintro b hb
        obtain rfl := Option.some.inj (hb : some e = some b)
        refine ⟨hnd.1, fun t ht ↦ ?_⟩
        have hb' := (h.calls_apart t e ht).2
        simp at hb'
      · simpa [regs] using h.serials
      · have hcons : (regs s.log).Perm
            (x :: (ys.map Prod.snd ++ (pops s.log ++ cancels s.log))) := by
          simpa using h.conserved
        -- the head moves from the front of the pending entries to the end of the popped ones
        have hmove : (x :: (ys.map Prod.snd ++ (pops s.log ++ cancels s.log))).Perm
            (ys.map Prod.snd ++ (pops s.log ++ x :: cancels s.log)) := by
          rw [← List.append_assoc, ← List.append_assoc]
          exact List.perm_middle.symm
        simpa [regs, pops, cancels] using hcons.trans hmove
      · intro now' x' hx'
        rcases List.mem_append.1 hx' with hx' | hx'
        · exact h.due now' x' hx'
        · obtain ⟨rfl, rfl⟩ : now' = now ∧ x' = x := by simpa using hx'
          exact hdue

theorem Inv.start {e : ℕ} {c : Cell (TimeEntry η α)} (h : s.Inv xs) (hpc : s.pc = .call e) :
    Inv { s with pc := .handling e, log := s.log ++ [.started c.val] } xs := by
  have hhand : s.pc.inHand = some e := by rw [hpc]; rfl
  refine ⟨h.holds, h.calls_apart, h.calls_inj, ?_, ?_, ?_, ?_, ?_⟩
  · rintro b hb
    obtain rfl := Option.some.inj (hb : some e = some b)
    simpa [pops] using h.hand e hhand
  · rintro b hb
    obtain rfl := Option.some.inj (hb : some e = some b)
    exact h.hand_apart e hhand
  · simpa [regs] using h.serials
  · simpa [regs, pops, cancels] using h.conserved
  · intro now x hx
    exact h.due now x (by simpa using hx)

theorem Inv.free {e : ℕ} (h : s.Inv xs) (hpc : s.pc = .handling e) :
    Inv { s with timers := s.timers.freeEntry e, pc := .drainTop } xs := by
  have hhand : s.pc.inHand = some e := by rw [hpc]; rfl
  obtain ⟨hxs, hcalls⟩ := h.hand_apart e hhand
  refine ⟨Links.erase_of_notMem h.holds hxs, fun t b hb ↦ ?_, h.calls_inj,
    fun b hb ↦ absurd hb (by simp [WorkerPc.inHand]),
    fun b hb ↦ absurd hb (by simp [WorkerPc.inHand]), h.serials, h.conserved, h.due⟩
  have hbe : b ≠ e := fun hbe ↦ hcalls t (hbe ▸ hb)
  exact ⟨Finmap.mem_erase.2 ⟨hbe, (h.calls_apart t b hb).1⟩, (h.calls_apart t b hb).2⟩

theorem Inv.workerStep (h : s.Inv xs) (hstep : s.workerStep = some s') : ∃ ys, s'.Inv ys := by
  rcases workerStep_cases hstep with ⟨ht, hc, hl, hp, -⟩ | ⟨now, e, timers, c, -, hpop, hc, rfl⟩ |
    ⟨e, c, hpc, -, rfl⟩ | ⟨e, hpc, rfl⟩
  · exact ⟨xs, h.of_eq ht hc hl hp⟩
  · obtain ⟨ys, -, hys⟩ := h.pop hpop hc
    exact ⟨ys, hys⟩
  · exact ⟨xs, h.start hpc⟩
  · exact ⟨xs, h.free hpc⟩

/-! ### The whole system -/

variable [DecidableEq τ] [DecidableEq η] [DecidableEq α]

/-- One step of the system. -/
def step : TimerLabel τ η α → TimerSystem τ η α → Option (TimerSystem τ η α)
  | .clock now, s => some { s with clock := now }
  | .alloc t msecs handler arg e, s =>
    if s.active t = true ∧ s.calls t = none then
      match handler, e with
      | some h, some e =>
        (s.timers.alloc e ⟨s.clock + msecs, h, arg, 0⟩).map fun timers ↦
          { s with timers := timers, calls := Function.update s.calls t (some e) }
      | _, _ => some s
    else none
  | .insert t, s =>
    if s.held = true then none
    else
      (s.calls t).bind fun e ↦ (s.timers.insertEntry e).bind fun timers ↦
        (timers.list.heap.lookup e).map fun c ↦
          { s with
            timers := timers
            calls := Function.update s.calls t none
            log := s.log ++ [.registered c.val] }
  | .untimeout t handler arg, s =>
    if s.active t = true ∧ s.calls t = none then
      match handler with
      | none => some s
      | some h =>
        if s.held = true then none
        else
          (s.timers.sysUntimeout (some h) arg).map fun timers ↦
            { s with
              timers := timers
              log := s.log ++ [.cancelled h arg (s.pending.filter (TimeEntry.isFor h arg))] }
    else none
  | .worker, s => s.workerStep

/-- **What a step of the system can do.** A call that fails, or that has no handler, does nothing. -/
theorem step_cases {l : TimerLabel τ η α} (hl : step l s = some s') :
    (∃ now, l = .clock now ∧ s' = { s with clock := now }) ∨
    (l ≠ .worker ∧ s' = s) ∨
    (∃ t x e, l ≠ .worker ∧ e ∉ s.timers.list.heap ∧
      s' = { s with
        timers := { s.timers with
          list := { s.timers.list with heap := s.timers.list.heap.insert e ⟨x, none⟩ } }
        calls := Function.update s.calls t (some e) }) ∨
    (∃ t e timers c, l = .insert t ∧ s.held = false ∧ s.calls t = some e ∧
      s.timers.insertEntry e = some timers ∧ timers.list.heap.lookup e = some c ∧
      s' = { s with
        timers := timers
        calls := Function.update s.calls t none
        log := s.log ++ [.registered c.val] }) ∨
    (∃ t h a timers, l = .untimeout t (some h) a ∧ s.held = false ∧
      s.timers.sysUntimeout (some h) a = some timers ∧
      s' = { s with
        timers := timers
        log := s.log ++ [.cancelled h a (s.pending.filter (TimeEntry.isFor h a))] }) ∨
    (l = .worker ∧ s.workerStep = some s') := by
  rcases l with now | ⟨t, msecs, handler, arg, e⟩ | t | ⟨t, handler, arg⟩ | -
  · obtain rfl := Option.some.inj hl
    exact Or.inl ⟨now, rfl, rfl⟩
  · rw [step.eq_def] at hl
    obtain ⟨-, hl⟩ := Option.ite_none_right_eq_some.1 hl
    split at hl
    · obtain ⟨timers, htimers, rfl⟩ := Option.map_eq_some_iff.1 hl
      obtain ⟨he, htimers⟩ := Option.ite_none_left_eq_some.1 htimers
      obtain rfl := Option.some.inj htimers
      exact Or.inr (Or.inr (Or.inl ⟨t, _, _, by simp, he, rfl⟩))
    · obtain rfl := Option.some.inj hl
      exact Or.inr (Or.inl ⟨by simp, rfl⟩)
  · obtain ⟨hheld, hl⟩ := Option.ite_none_left_eq_some.1 hl
    obtain ⟨e, he, hl⟩ := Option.bind_eq_some_iff.1 hl
    obtain ⟨timers, htimers, hl⟩ := Option.bind_eq_some_iff.1 hl
    obtain ⟨c, hc, rfl⟩ := Option.map_eq_some_iff.1 hl
    exact Or.inr (Or.inr (Or.inr (Or.inl
      ⟨t, e, timers, c, rfl, Bool.eq_false_iff.2 hheld, he, htimers, hc, rfl⟩)))
  · rw [step.eq_def] at hl
    obtain ⟨-, hl⟩ := Option.ite_none_right_eq_some.1 hl
    split at hl
    · obtain rfl := Option.some.inj hl
      exact Or.inr (Or.inl ⟨by simp, rfl⟩)
    · obtain ⟨hheld, hl⟩ := Option.ite_none_left_eq_some.1 hl
      obtain ⟨timers, htimers, rfl⟩ := Option.map_eq_some_iff.1 hl
      exact Or.inr (Or.inr (Or.inr (Or.inr (Or.inl
        ⟨t, _, arg, timers, rfl, Bool.eq_false_iff.2 hheld, htimers, rfl⟩))))
  · exact Or.inr (Or.inr (Or.inr (Or.inr (Or.inr ⟨rfl, hl⟩))))

omit [DecidableEq η] [DecidableEq α] in
theorem Inv.alloc {t : Option τ} {e : ℕ} {x : TimeEntry η α} (h : s.Inv xs)
    (he : e ∉ s.timers.list.heap) :
    Inv { s with
      timers := { s.timers with
        list := { s.timers.list with heap := s.timers.list.heap.insert e ⟨x, none⟩ } }
      calls := Function.update s.calls t (some e) } xs := by
  have hxs : e ∉ xs.map Prod.fst := fun hx ↦ he (h.holds.mem_heap hx)
  have hne : ∀ t b, s.calls t = some b → b ≠ e := fun t b hb hbe ↦
    he (hbe ▸ (h.calls_apart t b hb).1)
  have hhand : ∀ b, s.pc.inHand = some b → b ≠ e := by
    rintro b hb rfl
    obtain ⟨y, q, hy, -⟩ := h.hand b hb
    exact he (Finmap.mem_iff.2 ⟨_, hy⟩)
  -- the updated call table: the new entry for `t`, the old ones for the others
  have hcalls : ∀ t' b, Function.update s.calls t (some e) t' = some b →
      (t' = t ∧ b = e) ∨ (t' ≠ t ∧ s.calls t' = some b) := by
    intro t' b hb
    by_cases ht : t' = t
    · subst ht
      rw [Function.update_self] at hb
      exact Or.inl ⟨rfl, (Option.some.inj hb).symm⟩
    · rw [Function.update_of_ne ht] at hb
      exact Or.inr ⟨ht, hb⟩
  refine ⟨Links.insert_of_notMem h.holds hxs _, fun t' b hb ↦ ?_, fun t₁ t₂ b h₁ h₂ ↦ ?_,
    fun b hb ↦ ?_, fun b hb ↦ ⟨(h.hand_apart b hb).1, fun t' ht' ↦ ?_⟩, h.serials, h.conserved,
    h.due⟩
  · rcases hcalls t' b hb with ⟨-, rfl⟩ | ⟨-, hb⟩
    · exact ⟨Finmap.mem_insert.2 (Or.inl rfl), hxs⟩
    · exact ⟨Finmap.mem_insert.2 (Or.inr (h.calls_apart t' b hb).1), (h.calls_apart t' b hb).2⟩
  · rcases hcalls t₁ b h₁ with ⟨rfl, rfl⟩ | ⟨-, hb₁⟩ <;> rcases hcalls t₂ b h₂ with ⟨rfl, hb⟩ | ⟨-, hb₂⟩
    · rfl
    · exact absurd rfl (hne t₂ b hb₂)
    · exact absurd hb (hne t₁ b hb₁)
    · exact h.calls_inj t₁ t₂ b hb₁ hb₂
  · obtain ⟨y, q, hy, hpop⟩ := h.hand b hb
    exact ⟨y, q, (Finmap.lookup_insert_of_ne _ (hhand b hb)).trans hy, hpop⟩
  · rcases hcalls t' b ht' with ⟨-, rfl⟩ | ⟨-, hb'⟩
    · exact hhand b hb rfl
    · exact (h.hand_apart b hb).2 t' hb'

omit [DecidableEq τ] [DecidableEq η] [DecidableEq α] in
/-- Inserting an entry adds it to the pending ones, up to their order. -/
theorem perm_insertAt (xs : List (ℕ × TimeEntry η α)) (y : ℕ × TimeEntry η α) :
    (TimerList.insertAt xs y).Perm (y :: xs) := by
  refine List.perm_middle.trans (List.Perm.cons y ?_)
  rw [List.takeWhile_append_dropWhile]

omit [DecidableEq η] [DecidableEq α] in
theorem Inv.insert {t : Option τ} {e : ℕ} {timers : TimerList η α} {c : Cell (TimeEntry η α)}
    (h : s.Inv xs) (ht : s.calls t = some e) (hins : s.timers.insertEntry e = some timers)
    (hc : timers.list.heap.lookup e = some c) :
    ∃ ys, Inv { s with
      timers := timers
      calls := Function.update s.calls t none
      log := s.log ++ [.registered c.val] } ys := by
  obtain ⟨hmem, hxs⟩ := h.calls_apart t e ht
  obtain ⟨⟨x, q⟩, hx⟩ := Finmap.mem_iff.1 hmem
  obtain ⟨l', hins', hhold, hser, hframe⟩ := TimerList.insertEntry_eq h.holds hx hxs
  obtain rfl := Option.some.inj (hins.symm.trans hins')
  set y : TimeEntry η α := { x with serial := s.timers.serial } with hy
  have hperm := perm_insertAt xs (e, y)
  have hcy : c.val = y := by
    obtain ⟨r, hr⟩ := hhold.lookup (hperm.mem_iff.2 List.mem_cons_self)
    rw [hc, Option.some.injEq] at hr
    rw [hr]
  have hmemaddr : ∀ b, b ∈ (TimerList.insertAt xs (e, y)).map Prod.fst ↔
      b = e ∨ b ∈ xs.map Prod.fst := fun b ↦ by
    rw [(hperm.map Prod.fst).mem_iff, List.map_cons, List.mem_cons]
  -- cells of other callers and of the timer thread stay apart from the list
  have hother : ∀ b, b ≠ e → b ∉ xs.map Prod.fst →
      timers.list.heap.lookup b = s.timers.list.heap.lookup b ∧
        b ∉ (TimerList.insertAt xs (e, y)).map Prod.fst := fun b hbe hbx ↦
    ⟨hframe b hbe hbx, fun hb ↦ ((hmemaddr b).1 hb).elim hbe hbx⟩
  have hcalls : ∀ t' b, Function.update s.calls t none t' = some b →
      t' ≠ t ∧ s.calls t' = some b ∧ b ≠ e := by
    intro t' b hb
    by_cases ht' : t' = t
    · subst ht'
      rw [Function.update_self] at hb
      cases hb
    · rw [Function.update_of_ne ht'] at hb
      exact ⟨ht', hb, fun hbe ↦ ht' (h.calls_inj t' t e (hbe ▸ hb) ht)⟩
  refine ⟨TimerList.insertAt xs (e, y), hhold, fun t' b hb ↦ ?_, fun t₁ t₂ b h₁ h₂ ↦ ?_,
    fun b hb ↦ ?_, fun b hb ↦ ?_, ?_, ?_, fun now x' hx' ↦ ?_⟩
  · obtain ⟨-, hb, hbe⟩ := hcalls t' b hb
    obtain ⟨hlook, hapart⟩ := hother b hbe (h.calls_apart t' b hb).2
    obtain ⟨c', hc'⟩ := Finmap.mem_iff.1 (h.calls_apart t' b hb).1
    exact ⟨Finmap.mem_iff.2 ⟨c', hlook.trans hc'⟩, hapart⟩
  · exact h.calls_inj t₁ t₂ b (hcalls t₁ b h₁).2.1 (hcalls t₂ b h₂).2.1
  · obtain ⟨hbx, hbc⟩ := h.hand_apart b hb
    have hbe : b ≠ e := fun hbe ↦ hbc t (hbe ▸ ht)
    obtain ⟨x', q', hx', hpop⟩ := h.hand b hb
    exact ⟨x', q', (hother b hbe hbx).1.trans hx', by simpa [pops] using hpop⟩
  · obtain ⟨hbx, hbc⟩ := h.hand_apart b hb
    have hbe : b ≠ e := fun hbe ↦ hbc t (hbe ▸ ht)
    exact ⟨(hother b hbe hbx).2, fun t' ht' ↦ hbc t' (hcalls t' b ht').2.1⟩
  · have hserial : c.val.serial = s.timers.serial := by rw [hcy]
    show (regs (s.log ++ [.registered c.val])).map TimeEntry.serial = List.range timers.serial
    rw [hser, List.range_succ, ← h.serials]
    simp [regs, hserial]
  · have hregs : regs (s.log ++ [.registered c.val]) = regs s.log ++ [y] := by simp [regs, hcy]
    have hpops : pops (s.log ++ [.registered c.val]) = pops s.log := by simp [pops]
    have hcancels : cancels (s.log ++ [.registered c.val]) = cancels s.log := by simp [cancels]
    show (regs (s.log ++ [.registered c.val])).Perm _
    rw [hregs, hpops, hcancels]
    calc (regs s.log ++ [y]).Perm (y :: regs s.log) := List.perm_append_comm
      _ |>.Perm (y :: (xs.map Prod.snd ++ pops s.log ++ cancels s.log)) := h.conserved.cons y
      _ |>.Perm ((TimerList.insertAt xs (e, y)).map Prod.snd ++ pops s.log ++ cancels s.log) :=
        (((hperm.map Prod.snd).symm.append_right _).append_right _)
  · exact h.due now x' (by simpa using hx')

omit [DecidableEq τ] in
/-- `sys_untimeout` moves the matching entries from the pending to the cancelled ones. -/
theorem Inv.untimeout {hd : η} {a : α} {timers : TimerList η α} (h : s.Inv xs)
    (hun : s.timers.sysUntimeout (some hd) a = some timers) :
    Inv { s with
      timers := timers
      log := s.log ++ [.cancelled hd a (s.pending.filter (TimeEntry.isFor hd a))] }
      (xs.filter fun x ↦ !x.2.isFor hd a) := by
  obtain ⟨timers', hun', hhold, hser, hframe⟩ := TimerList.sysUntimeout_eq h.holds hd a
  obtain rfl := Option.some.inj (hun.symm.trans hun')
  have hsub : ∀ b, b ∉ xs.map Prod.fst →
      b ∉ (xs.filter fun x ↦ !x.2.isFor hd a).map Prod.fst := fun b hb hb' ↦
    hb (List.Sublist.subset (List.filter_sublist.map _) hb')
  refine ⟨hhold, fun t b hb ↦ ?_, h.calls_inj, fun b hb ↦ ?_, fun b hb ↦ ?_, ?_, ?_,
    fun now x hx ↦ h.due now x (by simpa using hx)⟩
  · obtain ⟨hmem, hbx⟩ := h.calls_apart t b hb
    obtain ⟨c, hc⟩ := Finmap.mem_iff.1 hmem
    exact ⟨Finmap.mem_iff.2 ⟨c, (hframe b hbx).trans hc⟩, hsub b hbx⟩
  · obtain ⟨x, q, hx, hpop⟩ := h.hand b hb
    exact ⟨x, q, (hframe b (h.hand_apart b hb).1).trans hx, by simpa [pops] using hpop⟩
  · exact ⟨hsub b (h.hand_apart b hb).1, (h.hand_apart b hb).2⟩
  · show (regs (s.log ++ [_])).map TimeEntry.serial = List.range timers.serial
    rw [hser, ← h.serials]
    simp [regs]
  · have hpend : s.pending = xs.map Prod.snd := TimerList.pending_eq h.holds
    have hkeep : (xs.filter fun x ↦ !x.2.isFor hd a).map Prod.snd =
        (xs.map Prod.snd).filter fun x ↦ !x.isFor hd a := by
      rw [List.filter_map]
      rfl
    have hsplit : (xs.map Prod.snd).Perm (((xs.map Prod.snd).filter fun x ↦ !x.isFor hd a) ++
        (xs.map Prod.snd).filter (TimeEntry.isFor hd a)) :=
      ((List.filter_append_perm _ _).symm.trans List.perm_append_comm)
    -- the removed entries move to the end of the cancelled ones
    have hperm : (regs s.log).Perm (((xs.map Prod.snd).filter fun x ↦ !x.isFor hd a) ++
        pops s.log ++ (cancels s.log ++ (xs.map Prod.snd).filter (TimeEntry.isFor hd a))) := by
      refine h.conserved.trans (((hsplit.append_right _).append_right _).trans ?_)
      simp only [List.append_assoc]
      refine List.Perm.append_left _ (List.perm_append_comm.trans ?_)
      simp only [List.append_assoc]
      exact List.Perm.refl _
    simpa [regs, pops, cancels, hpend, hkeep] using hperm

/-- **Every step keeps the invariant.** -/
theorem Inv.step {l : TimerLabel τ η α} (h : s.Inv xs) (hl : step l s = some s') :
    ∃ ys, s'.Inv ys := by
  rcases step_cases hl with ⟨now, -, rfl⟩ | ⟨-, rfl⟩ | ⟨t, x, e, -, he, rfl⟩ |
    ⟨t, e, timers, c, -, -, he, htimers, hc, rfl⟩ | ⟨t, hd, a, timers, -, -, htimers, rfl⟩ | ⟨-, hw⟩
  · exact ⟨xs, h.of_eq rfl rfl rfl rfl⟩
  · exact ⟨xs, h⟩
  · exact ⟨xs, h.alloc he⟩
  · exact h.insert he htimers hc
  · exact ⟨_, h.untimeout htimers⟩
  · exact h.workerStep hw

/-- **The invariant holds in every reachable state.** -/
theorem run_inv {clock : U32} {ls : List (TimerLabel τ η α)}
    (h : runLabels step ls (init clock) = some s) : ∃ xs, s.Inv xs :=
  runLabels_invariant (I := fun s : TimerSystem τ η α ↦ ∃ xs, s.Inv xs) ⟨[], inv_init clock⟩
    (fun _ _ _ ⟨_, hxs⟩ hl ↦ hxs.step hl) h

/-! ### Conservation -/

omit [DecidableEq τ] [DecidableEq η] [DecidableEq α] in
theorem Inv.pending_eq (h : s.Inv xs) : s.pending = xs.map Prod.snd :=
  TimerList.pending_eq h.holds

omit [DecidableEq τ] [DecidableEq η] [DecidableEq α] in
/-- Registration numbers tell registered entries apart. -/
theorem Inv.regs_nodup (h : s.Inv xs) : (regs s.log).Nodup := by
  refine List.Nodup.of_map TimeEntry.serial ?_
  rw [h.serials]
  exact List.nodup_range

omit [DecidableEq τ] [DecidableEq η] [DecidableEq α] in
theorem Inv.conserved_pending (h : s.Inv xs) :
    (regs s.log).Perm (s.pending ++ pops s.log ++ cancels s.log) := by
  rw [h.pending_eq]
  exact h.conserved

omit [DecidableEq τ] in
/-- `sys_untimeout` terminates and removes all and only the matching entries. -/
theorem Inv.untimeout_pending (h : s.Inv xs) (hd : η) (a : α) :
    ∃ timers, s.timers.sysUntimeout (some hd) a = some timers ∧
      timers.pending = s.pending.filter fun x ↦ !x.isFor hd a := by
  obtain ⟨timers, hun, hhold, -⟩ := TimerList.sysUntimeout_eq h.holds hd a
  refine ⟨timers, hun, ?_⟩
  rw [TimerList.pending_eq hhold, h.pending_eq, List.filter_map]
  rfl

/-- **Timers are conserved.** In every interleaving of calls and of the timer thread's steps, every
registered entry is pending, popped or cancelled, exactly one of these and once; only entries whose
deadline has passed at the time read are popped; and whenever `sys_untimeout` gets the lock it
removes all and only the pending entries with its handler and argument, keeping the others in their
order. -/
theorem timers_conserved (clock : U32) (ls : List (TimerLabel τ η α)) (s : TimerSystem τ η α)
    (h : runLabels step ls (init clock) = some s) :
    (s.pending ++ pops s.log ++ cancels s.log).Nodup ∧
    (∀ x, .registered x ∈ s.log ↔ x ∈ s.pending ++ pops s.log ++ cancels s.log) ∧
    (∀ now x, .popped now x ∈ s.log → x.remaining now ≤ 0) ∧
    ∀ t hd a, s.active t = true → s.calls t = none → s.held = false →
      ∃ s', step (.untimeout t (some hd) a) s = some s' ∧
        s'.pending = s.pending.filter (fun x ↦ !x.isFor hd a) ∧
        cancels s'.log = cancels s.log ++ s.pending.filter (TimeEntry.isFor hd a) ∧
        regs s'.log = regs s.log ∧ pops s'.log = pops s.log := by
  obtain ⟨xs, hxs⟩ := run_inv h
  refine ⟨hxs.conserved_pending.nodup_iff.1 hxs.regs_nodup, fun x ↦ ?_, fun now x hx ↦ ?_,
    fun t hd a hact hcalls hheld ↦ ?_⟩
  · rw [← mem_regs_iff, hxs.conserved_pending.mem_iff]
  · simpa [TimeEntry.due] using hxs.due now x hx
  · obtain ⟨timers, hun, hpend⟩ := hxs.untimeout_pending hd a
    refine ⟨{ s with
      timers := timers
      log := s.log ++ [.cancelled hd a (s.pending.filter (TimeEntry.isFor hd a))] },
      ?_, hpend, ?_, ?_, ?_⟩
    · simp [step, hact, hcalls, hheld, hun]
    · simp [cancels]
    · simp [regs]
    · simp [pops]

/-- Two timers, one due at once: its handler runs and cancels the other. -/
theorem timers_conserved_cancel_in_handler :
    ∃ s : TimerSystem ℕ ℕ ℕ,
      runLabels step ([.alloc (some 1) 0 (some 7) 0 (some 10), .insert (some 1),
        .alloc (some 2) 5 (some 8) 0 (some 11), .insert (some 2)] ++ List.replicate 12 .worker ++
        [.untimeout none (some 8) 0]) (init 0) = some s ∧
      (s.pending.length, (pops s.log).length, (cancels s.log).length) = (0, 1, 1) ∧
      (s.pending ++ pops s.log ++ cancels s.log).Nodup ∧
      ∀ x, .registered x ∈ s.log ↔ x ∈ s.pending ++ pops s.log ++ cancels s.log := by
  refine exists_run_of_observe
    (fun s ↦ (s.pending.length, (pops s.log).length, (cancels s.log).length)) (0, 1, 1)
    (by decide) fun s hs hcounts ↦ ?_
  obtain ⟨hnodup, hstates, -⟩ := timers_conserved 0 _ s hs
  exact ⟨hcounts, hnodup, hstates⟩

end TimerSystem

end Lwip.Port
