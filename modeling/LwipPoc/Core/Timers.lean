import Mathlib.Data.List.Perm.Basic
import LwipPoc.Arch

/-!
# The timeout list of the core

`core/timers.c` keeps its timers on a list in which `time` is a **difference**: a timer is due when
the times of all the timers up to and including it have passed. `sys_timeout` therefore subtracts
its way to the place of the new timer and takes what is left from the timer behind it, and
`sys_untimeout` gives the time of the timer it removes to the next one.

The field `due` is not in the source. It records the moment a timer was registered for, on a time
line on which the list as a whole stands at a base `b`; `Accurate b` says that the differences tell
these moments. Registration and cancellation keep the list accurate, and no `u32_t` operation of
theirs wraps.
-/

namespace Lwip.Core

/-- `struct sys_timeo` without its link. -/
structure SysTimeo (η α : Type*) where
  /-- The time after the previous timer. -/
  time : U32
  /-- The handler, null for none. -/
  h : Option η
  /-- Its argument. -/
  arg : α
  /-- The moment the timer was registered for. -/
  due : ℕ
  deriving DecidableEq, Repr

namespace SysTimeo

variable {η α : Type*}

/-- The loop of `sys_timeout`, entered with a first timer that is due no later than the new one. -/
def insertAfter : SysTimeo η α → List (SysTimeo η α) → List (SysTimeo η α)
  | _, [] => []
  | timeout, [t] => [t, { timeout with time := timeout.time - t.time }]
  | timeout, t :: u :: us =>
    if timeout.time - t.time < u.time then
      t :: { timeout with time := timeout.time - t.time } ::
        { u with time := u.time - (timeout.time - t.time) } :: us
    else t :: insertAfter { timeout with time := timeout.time - t.time } (u :: us)

/-- `sys_timeout`, given the timer it has allocated and filled. -/
def sysTimeout (timeout : SysTimeo η α) : List (SysTimeo η α) → List (SysTimeo η α)
  | [] => [timeout]
  | t :: ts =>
    if timeout.time < t.time then timeout :: { t with time := t.time - timeout.time } :: ts
    else insertAfter timeout (t :: ts)

/-- `sys_untimeout`: remove the first timer with this handler and argument. -/
def sysUntimeout [DecidableEq η] [DecidableEq α] (handler : Option η) (arg : α) :
    List (SysTimeo η α) → List (SysTimeo η α)
  | [] => []
  | [t] => if t.h = handler ∧ t.arg = arg then [] else [t]
  | t :: u :: us =>
    if t.h = handler ∧ t.arg = arg then { u with time := u.time + t.time } :: us
    else t :: sysUntimeout handler arg (u :: us)

/-! ### Accuracy -/

/-- From the base `b`, the differences tell when the timers are due. -/
def Accurate : ℕ → List (SysTimeo η α) → Prop
  | _, [] => True
  | b, t :: ts => t.due = b + t.time.toNat ∧ Accurate t.due ts

variable {b : ℕ} {t timeout : SysTimeo η α} {ts : List (SysTimeo η α)}

/-- Nothing is due before the base. -/
theorem Accurate.le_due (h : Accurate b ts) : ∀ x ∈ ts, b ≤ x.due := by
  induction ts generalizing b with
  | nil => exact fun _ hx ↦ absurd hx List.not_mem_nil
  | cons t ts ih =>
    obtain ⟨hdue, hts⟩ := h
    intro x hx
    rcases List.mem_cons.1 hx with rfl | hx
    · omega
    · have := ih hts x hx
      omega

/-- Nothing is due before the first timer. -/
theorem Accurate.head_le_due (h : Accurate b (t :: ts)) :
    ∀ x ∈ t :: ts, b + t.time.toNat ≤ x.due := by
  intro x hx
  rcases List.mem_cons.1 hx with rfl | hx
  · exact h.1.ge
  · exact h.1 ▸ h.2.le_due x hx

theorem Accurate.insertAfter (h : Accurate b (t :: ts)) (hle : t.time ≤ timeout.time)
    (hdue : timeout.due = b + timeout.time.toNat) :
    Accurate b (insertAfter timeout (t :: ts)) := by
  have hsub : (timeout.time - t.time).toNat = timeout.time.toNat - t.time.toNat :=
    BitVec.toNat_sub_of_le hle
  have hle' : t.time.toNat ≤ timeout.time.toNat := hle
  have hnew : timeout.due = t.due + (timeout.time - t.time).toNat := by
    rw [h.1, hsub]
    omega
  induction ts generalizing b t timeout with
  | nil => exact ⟨h.1, hnew, trivial⟩
  | cons u us ih =>
    rw [SysTimeo.insertAfter]
    split_ifs with hlt
    · have hlt' : (timeout.time - t.time).toNat < u.time.toNat := hlt
      refine ⟨h.1, hnew, ?_, h.2.2⟩
      show u.due = timeout.due + (u.time - (timeout.time - t.time)).toNat
      rw [BitVec.toNat_sub_of_le (BitVec.le_of_lt hlt), h.2.1, hnew]
      omega
    · have hge : u.time ≤ timeout.time - t.time := BitVec.not_lt.1 hlt
      have hge' : u.time.toNat ≤ (timeout.time - t.time).toNat := hge
      refine ⟨h.1, ih h.2 hge hnew (BitVec.toNat_sub_of_le hge) hge' ?_⟩
      show timeout.due = u.due + (timeout.time - t.time - u.time).toNat
      rw [BitVec.toNat_sub_of_le hge, hnew, h.2.1]
      omega

/-- **Registration keeps the list accurate.** -/
theorem Accurate.sysTimeout (h : Accurate b ts) (hdue : timeout.due = b + timeout.time.toNat) :
    Accurate b (sysTimeout timeout ts) := by
  cases ts with
  | nil => exact ⟨hdue, trivial⟩
  | cons t ts =>
    rw [SysTimeo.sysTimeout]
    split_ifs with hlt
    · have hlt' : timeout.time.toNat < t.time.toNat := hlt
      refine ⟨hdue, ?_, h.2⟩
      show t.due = timeout.due + (t.time - timeout.time).toNat
      rw [BitVec.toNat_sub_of_le (BitVec.le_of_lt hlt), h.1, hdue]
      omega
    · exact h.insertAfter (BitVec.not_lt.1 hlt) hdue

/-- **Cancellation keeps the list accurate**, as long as no timer is due `2 ^ 32` ms ahead. -/
theorem Accurate.sysUntimeout [DecidableEq η] [DecidableEq α] {handler : Option η} {arg : α}
    (h : Accurate b ts) (hbound : ∀ x ∈ ts, x.due < b + 2 ^ 32) :
    Accurate b (sysUntimeout handler arg ts) := by
  induction ts generalizing b with
  | nil => trivial
  | cons t ts ih =>
    cases ts with
    | nil =>
      rw [SysTimeo.sysUntimeout]
      split_ifs
      · trivial
      · exact h
    | cons u us =>
      rw [SysTimeo.sysUntimeout]
      have hu : u.due < b + 2 ^ 32 := hbound u (by simp)
      have hdue := h.1
      have hdue' := h.2.1
      split_ifs
      · refine ⟨?_, h.2.2⟩
        show u.due = b + (u.time + t.time).toNat
        rw [BitVec.toNat_add, Nat.mod_eq_of_lt (by omega)]
        omega
      · refine ⟨h.1, ih h.2 fun x hx ↦ ?_⟩
        have := hbound x (List.mem_cons_of_mem t hx)
        omega

/-! ### Which timers are on the list -/

/-- What is told of timers by something else than their times. -/
theorem map_insertAfter {β : Type*} {f : SysTimeo η α → β} (hf : ∀ t n, f { t with time := n } = f t)
    (h : ts ≠ []) : ((insertAfter timeout ts).map f).Perm (f timeout :: ts.map f) := by
  induction timeout, ts using insertAfter.induct with
  | case1 => exact absurd rfl h
  | case2 timeout t =>
    rw [insertAfter, List.map_cons, List.map_cons, hf timeout]
    exact List.Perm.swap _ _ _
  | case3 timeout t u us hlt =>
    rw [insertAfter, if_pos hlt, List.map_cons, List.map_cons, List.map_cons, hf timeout, hf u]
    exact List.Perm.swap _ _ _
  | case4 timeout t u us hlt ih =>
    rw [insertAfter, if_neg hlt, List.map_cons]
    have hrest := ih (List.cons_ne_nil _ _)
    rw [hf timeout] at hrest
    exact (hrest.cons (f t)).trans (List.Perm.swap _ _ _)

/-- Registration adds one timer. -/
theorem map_sysTimeout {β : Type*} {f : SysTimeo η α → β} (hf : ∀ t n, f { t with time := n } = f t) :
    ((sysTimeout timeout ts).map f).Perm (f timeout :: ts.map f) := by
  cases ts with
  | nil => exact List.Perm.refl _
  | cons t ts =>
    rw [sysTimeout]
    split_ifs
    · rw [List.map_cons, List.map_cons, hf t]
      exact List.Perm.refl _
    · exact map_insertAfter hf (List.cons_ne_nil _ _)

theorem map_due_sysTimeout : ((sysTimeout timeout ts).map due).Perm (timeout.due :: ts.map due) :=
  map_sysTimeout fun _ _ ↦ rfl

/-- Cancellation takes off the timer it looks for, if there is one. -/
theorem map_sysUntimeout [DecidableEq η] [DecidableEq α] {β : Type*} {f : SysTimeo η α → β}
    (hf : ∀ t n, f { t with time := n } = f t) {handler : Option η} {arg : α} :
    ((sysUntimeout handler arg ts).map f ++
      ((ts.find? fun t ↦ t.h = handler ∧ t.arg = arg).map f).toList).Perm (ts.map f) := by
  induction ts with
  | nil => exact List.Perm.refl _
  | cons t ts ih =>
    by_cases hmatch : t.h = handler ∧ t.arg = arg
    · have hrest : (sysUntimeout handler arg (t :: ts)).map f = ts.map f := by
        cases ts with
        | nil => rw [sysUntimeout, if_pos hmatch]
        | cons u us => rw [sysUntimeout, if_pos hmatch, List.map_cons, List.map_cons, hf u]
      rw [hrest, List.find?_cons_of_pos (by simpa using hmatch)]
      exact List.perm_append_comm
    · have hrest : sysUntimeout handler arg (t :: ts) = t :: sysUntimeout handler arg ts := by
        cases ts with
        | nil => exact if_neg hmatch
        | cons u us => rw [sysUntimeout, if_neg hmatch]
      rw [hrest, List.find?_cons_of_neg (by simpa using hmatch)]
      exact ih.cons (f t)

/-- Cancellation adds none. -/
theorem map_due_sysUntimeout [DecidableEq η] [DecidableEq α] {handler : Option η} {arg : α} :
    ((sysUntimeout handler arg ts).map due).Sublist (ts.map due) := by
  induction ts with
  | nil => exact List.Sublist.refl _
  | cons t ts ih =>
    cases ts with
    | nil =>
      rw [sysUntimeout]
      split_ifs
      · exact List.nil_sublist _
      · exact List.Sublist.refl _
    | cons u us =>
      rw [sysUntimeout]
      split_ifs
      · exact List.sublist_cons_self _ _
      · exact ih.cons_cons _

end SysTimeo

end Lwip.Core
