import LwipPoc.Core.CheckTimeouts
import Mathlib.Algebra.Group.Nat.Hom

/-!
# Sums of differences

The list of `core/timers.c` as it is meant: every timer with the **sum of the differences** up to it, which is
when it is due, counted from where the list stands (`schedule`). `sys_timeout` puts one element into it, behind
all that are due no later, and `sys_untimeout` takes one out; neither moves another timer.

The sums are natural numbers where they can be. A registration never leaves what a `u32_t` can hold, but a
cancellation adds two differences, which wraps on a list that is made up. It does not on one that was made by
calls: a sum is at most the delay of its timer (`timeoutsAfter_within`).
-/

namespace Lwip.Core

/-! ### Differences and moments -/

section Moments

variable {β M : Type*} [AddCommMonoid M]

/-- The moments that are told by differences, the first of which counts from `b`. -/
def moments (b : M) : List (β × M) → List (β × M)
  | [] => []
  | x :: xs => (x.1, b + x.2) :: moments (b + x.2) xs

@[simp] theorem moments_nil (b : M) : moments b ([] : List (β × M)) = [] := rfl

@[simp] theorem moments_cons (b : M) (x : β × M) (xs : List (β × M)) :
    moments b (x :: xs) = (x.1, b + x.2) :: moments (b + x.2) xs := rfl

/-- **Taking an element out**, with its difference added to the next one. -/
theorem moments_merge (b : M) (x y : β × M) (xs : List (β × M)) :
    moments b ((y.1, y.2 + x.2) :: xs) = moments (b + x.2) (y :: xs) := by
  rw [moments_cons, moments_cons, add_comm y.2, ← add_assoc]

/-- Nothing is due before the base. -/
theorem le_moments {b : ℕ} {xs : List (β × ℕ)} : ∀ x ∈ moments b xs, b ≤ x.2 := by
  induction xs generalizing b with
  | nil => exact fun _ hx ↦ absurd hx List.not_mem_nil
  | cons y ys ih =>
    rw [moments_cons, List.forall_mem_cons]
    exact ⟨Nat.le_add_right _ _, fun x hx ↦ (Nat.le_add_right _ _).trans (ih x hx)⟩

/-- From an earlier base, everything is due earlier. -/
theorem moments_lt_of_le {b b' n : ℕ} {xs : List (β × ℕ)} (hle : b' ≤ b) (h : ∀ x ∈ moments b xs, x.2 < n) :
    ∀ x ∈ moments b' xs, x.2 < n := by
  induction xs generalizing b b' with
  | nil => exact fun _ hx ↦ absurd hx List.not_mem_nil
  | cons y ys ih =>
    rw [moments_cons, List.forall_mem_cons] at h ⊢
    exact ⟨(Nat.add_le_add_right hle _).trans_lt h.1, ih (Nat.add_le_add_right hle _) h.2⟩

/-- The difference of a neighbour, and its own one, are no more than the moment of an element. -/
theorem exists_moment {b : ℕ} (pre : List (β × ℕ)) (x y : β × ℕ) (xs : List (β × ℕ)) :
    ∃ z ∈ moments b (pre ++ x :: y :: xs), x.2 + y.2 ≤ z.2 := by
  induction pre generalizing b with
  | nil => exact ⟨_, List.mem_cons_of_mem _ List.mem_cons_self, by show _ ≤ b + x.2 + y.2; omega⟩
  | cons w pre ih =>
    obtain ⟨z, hz, hle⟩ := ih (b := b + w.2)
    exact ⟨z, List.mem_cons_of_mem _ hz, hle⟩

end Moments

namespace SysTimeo

variable {η α : Type*}

/-- The timers and when they are due, from the base `b`. -/
def schedule (b : ℕ) (ts : List (SysTimeo η α)) : List (Registration η α × ℕ) :=
  moments b (ts.map fun t ↦ (t.registration, t.time.toNat))

/-- The same with sums that wrap. -/
def wordSchedule (b : U32) (ts : List (SysTimeo η α)) : List (Registration η α × U32) :=
  moments b (ts.map fun t ↦ (t.registration, t.time))

variable {b : ℕ} {t timeout : SysTimeo η α} {ts : List (SysTimeo η α)}

@[simp] theorem schedule_nil : schedule b ([] : List (SysTimeo η α)) = [] := rfl

@[simp] theorem schedule_cons : schedule b (t :: ts) =
    (t.registration, b + t.time.toNat) :: schedule (b + t.time.toNat) ts := rfl

@[simp] theorem registration_time (t : SysTimeo η α) (n : U32) :
    ({ t with time := n } : SysTimeo η α).registration = t.registration := rfl

/-! ### `sys_timeout` -/

/-- A subtraction of differences, checked. -/
def checkedSub (a b : U32) : Option U32 := if b ≤ a then some (a - b) else none

/-- The loop of `sys_timeout`, with its subtractions checked. -/
def checkedInsertAfter : SysTimeo η α → List (SysTimeo η α) → Option (List (SysTimeo η α))
  | _, [] => some []
  | timeout, [t] => (checkedSub timeout.time t.time).map fun time ↦ [t, { timeout with time := time }]
  | timeout, t :: u :: us =>
    (checkedSub timeout.time t.time).bind fun time ↦
      if time < u.time then
        (checkedSub u.time time).map fun rest ↦ t :: { timeout with time := time } :: { u with time := rest } :: us
      else (checkedInsertAfter { timeout with time := time } (u :: us)).map (t :: ·)

/-- `sys_timeout`, with its subtractions checked. -/
def checkedSysTimeout (timeout : SysTimeo η α) : List (SysTimeo η α) → Option (List (SysTimeo η α))
  | [] => some [timeout]
  | t :: ts =>
    if timeout.time < t.time then
      (checkedSub t.time timeout.time).map fun rest ↦ timeout :: { t with time := rest } :: ts
    else checkedInsertAfter timeout (t :: ts)

theorem checkedSub_of_le {a b : U32} (h : b ≤ a) : checkedSub a b = some (a - b) := if_pos h

theorem checkedInsertAfter_eq (hle : t.time ≤ timeout.time) :
    checkedInsertAfter timeout (t :: ts) = some (insertAfter timeout (t :: ts)) := by
  induction ts generalizing t timeout with
  | nil => rw [checkedInsertAfter, checkedSub_of_le hle, insertAfter, Option.map_some]
  | cons u us ih =>
    rw [checkedInsertAfter, checkedSub_of_le hle, Option.bind_some, insertAfter]
    split_ifs with hlt
    · rw [checkedSub_of_le (BitVec.le_of_lt hlt), Option.map_some]
    · rw [ih (BitVec.not_lt.1 hlt), Option.map_some]

/-- **No subtraction underflows**, whatever is on the list. -/
theorem checkedSysTimeout_eq (timeout : SysTimeo η α) (ts : List (SysTimeo η α)) :
    checkedSysTimeout timeout ts = some (sysTimeout timeout ts) := by
  rcases ts with - | ⟨t, ts⟩
  · rfl
  · rw [checkedSysTimeout, sysTimeout]
    split_ifs with hlt
    · rw [checkedSub_of_le (BitVec.le_of_lt hlt), Option.map_some]
    · exact checkedInsertAfter_eq (BitVec.not_lt.1 hlt)

/-- **A timer is put between others**, none of which is moved. -/
def Inserted (x : Registration η α × ℕ) (xs ys : List (Registration η α × ℕ)) : Prop :=
  ∃ pre post, xs = pre ++ post ∧ ys = pre ++ x :: post ∧ (∀ y ∈ pre, y.2 ≤ x.2) ∧ ∀ y ∈ post, x.2 < y.2

theorem Inserted.cons {x y : Registration η α × ℕ} {xs ys : List (Registration η α × ℕ)} (h : Inserted x xs ys)
    (hle : y.2 ≤ x.2) : Inserted x (y :: xs) (y :: ys) := by
  obtain ⟨pre, post, rfl, rfl, hpre, hpost⟩ := h
  exact ⟨y :: pre, post, rfl, rfl, List.forall_mem_cons.2 ⟨hle, hpre⟩, hpost⟩

/-- In front of a timer that is due later, which keeps its moment. -/
theorem inserted_front (hlt : timeout.time < t.time) :
    Inserted (timeout.registration, b + timeout.time.toNat) (schedule b (t :: ts))
      (schedule b (timeout :: { t with time := t.time - timeout.time } :: ts)) := by
  have hlt' : timeout.time.toNat < t.time.toNat := hlt
  have hsum : b + timeout.time.toNat + (t.time - timeout.time).toNat = b + t.time.toNat := by
    rw [BitVec.toNat_sub_of_le (BitVec.le_of_lt hlt)]
    omega
  refine ⟨[], schedule b (t :: ts), rfl, ?_, nofun, ?_⟩
  · rw [schedule_cons, schedule_cons, schedule_cons, registration_time, hsum]
    rfl
  · rw [schedule_cons, List.forall_mem_cons]
    refine ⟨by simpa using hlt', fun y hy ↦ ?_⟩
    have := le_moments y hy
    show b + timeout.time.toNat < y.2
    omega

/-- **The loop** passes the timers that are due no later. -/
theorem inserted_insertAfter (hle : t.time ≤ timeout.time) :
    Inserted (timeout.registration, b + timeout.time.toNat) (schedule b (t :: ts))
      (schedule b (insertAfter timeout (t :: ts))) := by
  have hle' : t.time.toNat ≤ timeout.time.toNat := hle
  -- what is left of the delay, counted from the first timer
  have hsum : b + timeout.time.toNat = b + t.time.toNat + (timeout.time - t.time).toNat := by
    rw [BitVec.toNat_sub_of_le hle]
    omega
  induction ts generalizing b t timeout with
  | nil =>
    rw [insertAfter, schedule_cons, schedule_cons, schedule_cons, registration_time, hsum]
    exact Inserted.cons ⟨[], [], rfl, rfl, List.forall_mem_nil _, List.forall_mem_nil _⟩ (Nat.le_add_right _ _)
  | cons u us ih =>
    rw [insertAfter, hsum]
    split_ifs with hlt
    · have hfront : { timeout with time := timeout.time - t.time }.time < u.time := hlt
      exact (inserted_front hfront).cons (Nat.le_add_right _ _)
    · have hge : u.time ≤ { timeout with time := timeout.time - t.time }.time := BitVec.not_lt.1 hlt
      refine Inserted.cons (ih hge hge ?_) (Nat.le_add_right _ _)
      show b + t.time.toNat + (timeout.time - t.time).toNat =
        b + t.time.toNat + u.time.toNat + (timeout.time - t.time - u.time).toNat
      have hge' : u.time.toNat ≤ (timeout.time - t.time).toNat := hge
      rw [BitVec.toNat_sub_of_le (show u.time ≤ timeout.time - t.time from hge)]
      omega

/-- **Registration**, whatever is on the list. -/
theorem inserted_sysTimeout (timeout : SysTimeo η α) (ts : List (SysTimeo η α)) :
    Inserted (timeout.registration, b + timeout.time.toNat) (schedule b ts) (schedule b (sysTimeout timeout ts)) := by
  rcases ts with - | ⟨t, ts⟩
  · exact ⟨[], [], rfl, rfl, nofun, nofun⟩
  · rw [sysTimeout]
    split_ifs with hlt
    · exact inserted_front hlt
    · exact inserted_insertAfter (BitVec.not_lt.1 hlt)

/-! ### `sys_untimeout` -/

variable [DecidableEq η] [DecidableEq α] {handler : Option η} {arg : α}

/-- A timer with this handler and argument. -/
def isFor {M : Type*} (handler : Option η) (arg : α) (x : Registration η α × M) : Bool :=
  x.1.h = handler ∧ x.1.arg = arg

theorem isFor_iff {M : Type*} {d : M} : isFor handler arg (t.registration, d) = true ↔ t.h = handler ∧ t.arg = arg :=
  decide_eq_true_iff

/-- **Cancellation**, with sums of any kind in which the code adds. -/
theorem moments_sysUntimeout {M : Type*} [AddCommMonoid M] (f : U32 → M) (b : M)
    (hadd : ∀ t u us, t :: u :: us <:+ ts → f (u.time + t.time) = f u.time + f t.time) :
    moments b ((sysUntimeout handler arg ts).map fun t ↦ (t.registration, f t.time)) =
      (moments b (ts.map fun t ↦ (t.registration, f t.time))).eraseP (isFor handler arg) := by
  induction ts generalizing b with
  | nil => rfl
  | cons t ts ih =>
    rcases ts with - | ⟨u, us⟩
    · rw [sysUntimeout]
      split_ifs with hmatch
      · rw [List.map_cons, moments_cons, List.eraseP_cons_of_pos (isFor_iff.2 hmatch)]
        rfl
      · rw [List.map_cons, moments_cons, List.eraseP_cons_of_neg (mt isFor_iff.1 hmatch)]
        rfl
    · rw [sysUntimeout]
      split_ifs with hmatch
      · rw [List.map_cons (l := u :: us), moments_cons,
          List.eraseP_cons_of_pos (isFor_iff.2 hmatch), List.map_cons, List.map_cons]
        exact (congrArg (fun d ↦ moments b ((u.registration, d) :: _)) (hadd t u us List.suffix_rfl)).trans
          (moments_merge b (t.registration, f t.time) (u.registration, f u.time) _)
      · rw [List.map_cons, moments_cons, List.map_cons (l := u :: us), moments_cons,
          List.eraseP_cons_of_neg (mt isFor_iff.1 hmatch),
          ih _ fun t' u' us' hsuffix ↦ hadd t' u' us' (hsuffix.trans (List.suffix_cons _ _))]

/-- With sums that wrap, on every list. -/
theorem wordSchedule_sysUntimeout (handler : Option η) (arg : α) (ts : List (SysTimeo η α)) (b : U32) :
    wordSchedule b (sysUntimeout handler arg ts) = (wordSchedule b ts).eraseP (isFor handler arg) :=
  moments_sysUntimeout id b fun _ _ _ _ ↦ rfl

/-! ### The lists that there are -/

/-- No sum is more than a `u32_t` holds. -/
def Within (ts : List (SysTimeo η α)) : Prop := ∀ x ∈ schedule 0 ts, x.2 < 2 ^ 32

/-- With sums in the natural numbers. -/
theorem Within.sysUntimeout (h : Within ts) (handler : Option η) (arg : α) :
    schedule 0 (sysUntimeout handler arg ts) = (schedule 0 ts).eraseP (isFor handler arg) := by
  refine moments_sysUntimeout BitVec.toNat 0 fun t u us hsuffix ↦ ?_
  obtain ⟨pre, rfl⟩ := hsuffix
  rw [Within, schedule, List.map_append, List.map_cons, List.map_cons] at h
  obtain ⟨z, hz, hle⟩ := exists_moment (b := 0) (pre.map fun t ↦ (t.registration, t.time.toNat))
    (t.registration, t.time.toNat) (u.registration, u.time.toNat) (us.map fun t ↦ (t.registration, t.time.toNat))
  have hlt := h z hz
  rw [BitVec.toNat_add, Nat.mod_eq_of_lt]
  simp only at hle
  omega

/-- What happens to the list: the two calls, the first timer is run, and time that is waited for a message. -/
inductive TimeoutOp (η α : Type*)
  | timeout (timeout : SysTimeo η α)
  | untimeout (handler : Option η) (arg : α)
  | expire
  | elapse (timeNeeded : U32)

/-- What it does to the list. `elapse` is the end of `sys_timeouts_mbox_fetch`. -/
def TimeoutOp.apply : TimeoutOp η α → List (SysTimeo η α) → List (SysTimeo η α)
  | .timeout timeout, ts => sysTimeout timeout ts
  | .untimeout handler arg, ts => sysUntimeout handler arg ts
  | .expire, ts => ts.tail
  | .elapse _, [] => []
  | .elapse timeNeeded, t :: ts => { t with time := if timeNeeded < t.time then t.time - timeNeeded else 0 } :: ts

/-- The list after these, from the start of the program. -/
def timeoutsAfter (ops : List (TimeoutOp η α)) : List (SysTimeo η α) :=
  ops.foldl (fun ts op ↦ op.apply ts) []

/-- **One operation** keeps the sums within a `u32_t`. -/
theorem Within.apply (h : Within ts) (op : TimeoutOp η α) : Within (op.apply ts) := by
  rcases op with timeout | ⟨handler, arg⟩ | - | timeNeeded
  · obtain ⟨pre, post, hts, hnew, -, -⟩ := inserted_sysTimeout (b := 0) timeout ts
    rw [Within, hts] at h
    rw [TimeoutOp.apply, Within, hnew]
    intro x hx
    rcases List.mem_append.1 hx with hx | hx
    · exact h x (List.mem_append_left _ hx)
    rcases List.mem_cons.1 hx with rfl | hx
    · rw [Nat.zero_add]
      exact timeout.time.isLt
    · exact h x (List.mem_append_right _ hx)
  · rw [TimeoutOp.apply, Within, h.sysUntimeout]
    exact fun x hx ↦ h x (List.mem_of_mem_eraseP hx)
  · rcases ts with - | ⟨t, ts⟩
    · exact h
    · exact moments_lt_of_le (Nat.zero_le _) (List.forall_mem_cons.1 h).2
  · rcases ts with - | ⟨t, ts⟩
    · exact h
    · obtain ⟨hfirst, hrest⟩ := List.forall_mem_cons.1 h
      have hle : (if timeNeeded < t.time then t.time - timeNeeded else 0).toNat ≤ t.time.toNat := by
        split_ifs with hlt
        · rw [BitVec.toNat_sub_of_le (BitVec.le_of_lt hlt)]
          exact Nat.sub_le _ _
        · exact Nat.zero_le _
      refine List.forall_mem_cons.2 ⟨(Nat.add_le_add_left hle 0).trans_lt hfirst, ?_⟩
      exact moments_lt_of_le (Nat.add_le_add_left hle 0) hrest

/-- **Every list there is** has its sums within a `u32_t`. -/
theorem timeoutsAfter_within (ops : List (TimeoutOp η α)) : Within (timeoutsAfter ops) := by
  have hrun : ∀ ts : List (SysTimeo η α), Within ts → Within (ops.foldl (fun ts op ↦ op.apply ts) ts) := by
    induction ops with
    | nil => exact fun ts h ↦ h
    | cons op ops ih => exact fun ts h ↦ ih _ (h.apply op)
  exact hrun [] fun _ hx ↦ absurd hx List.not_mem_nil

/-- **The list tells when its timers are due.** On every list, no subtraction of `sys_timeout` underflows; the
new timer is put behind all that are due no later and in front of the others, due after its delay; and no other
one is moved. `sys_untimeout` takes off the first timer it looks for and moves no other one: in sums that wrap on
every list, and in natural numbers on every list that the program comes to. -/
theorem timeout_sums :
    (∀ (timeout : SysTimeo η α) (ts : List (SysTimeo η α)),
      checkedSysTimeout timeout ts = some (sysTimeout timeout ts) ∧
      Inserted (timeout.registration, timeout.time.toNat) (schedule 0 ts) (schedule 0 (sysTimeout timeout ts))) ∧
    (∀ (handler : Option η) (arg : α) (ts : List (SysTimeo η α)),
      wordSchedule 0 (sysUntimeout handler arg ts) = (wordSchedule 0 ts).eraseP (isFor handler arg)) ∧
    ∀ (handler : Option η) (arg : α) (ops : List (TimeoutOp η α)),
      schedule 0 (sysUntimeout handler arg (timeoutsAfter ops)) =
        (schedule 0 (timeoutsAfter ops)).eraseP (isFor handler arg) := by
  refine ⟨fun timeout ts ↦ ⟨checkedSysTimeout_eq timeout ts, ?_⟩, fun handler arg ts ↦ ?_, fun handler arg ops ↦ ?_⟩
  · have hinserted := inserted_sysTimeout (b := 0) timeout ts
    rwa [Nat.zero_add] at hinserted
  · exact wordSchedule_sysUntimeout handler arg ts 0
  · exact (timeoutsAfter_within ops).sysUntimeout handler arg

end SysTimeo

end Lwip.Core
