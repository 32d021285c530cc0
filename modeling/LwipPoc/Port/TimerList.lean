import Mathlib.Data.List.TakeWhile
import LwipPoc.Arch
import LwipPoc.Foundation.Execution
import LwipPoc.Foundation.LinkedHeap

/-!
# The port's timer list

The timer scheduler of `cwrap/sys_arch.c` keeps its entries on a list from `g_time_head`, which
`sys_timeout` edits by an insertion in the middle, `sys_untimeout` by several removals in one pass,
and the timer thread by popping the head, all through pointers to links. This module has these
edits on a heap of entries, the drain loop of `timer_thread_fn` at a fixed time, and what the order
of the list has to do with the order of the deadlines.

The two orders are different things. **Insertion compares absolute `u32` deadlines**, so the list
is sorted by `when_ms` with ties in registration order (`run_inv`). **Expiry compares the signed
difference from `now`**, so what is due, and what is due first, turns around the clock's wrap. The
drain pops the due entries in the order of their deadlines exactly when the two orders agree in
front of every due entry — `drain_correct_iff` — and `drain_misses_overdue` is a list on which they
do not.

`serial` is not a field of `time_entry_t`: it records the order in which entries went on the list.
-/

namespace Lwip.Port

open CellHeap

/-- `time_entry_t` without its link, and the entry's registration number. -/
structure TimeEntry (η α : Type*) where
  /-- The deadline in milliseconds. -/
  whenMs : U32
  /-- The handler to run. -/
  handler : η
  /-- Its argument. -/
  arg : α
  /-- The registration number, given when the entry goes on the list. -/
  serial : ℕ
  deriving DecidableEq, Repr

/-- `(s32_t)(when_ms - now)`: the deadline relative to `now`. -/
def TimeEntry.remaining {η α : Type*} (now : U32) (x : TimeEntry η α) : ℤ :=
  (x.whenMs - now).toInt

/-- The expiry test of the drain loop. -/
def TimeEntry.due {η α : Type*} (now : U32) (x : TimeEntry η α) : Bool :=
  decide (x.remaining now ≤ 0)

/-- The comparison of `sys_untimeout`. -/
def TimeEntry.isFor {η α : Type*} [DecidableEq η] [DecidableEq α] (h : η) (a : α)
    (x : TimeEntry η α) : Bool :=
  decide (x.handler = h) && decide (x.arg = a)

/-- The list from `g_time_head` and the number of registrations so far. -/
structure TimerList (η α : Type*) where
  /-- `g_time_head` and the allocated entries. -/
  list : RootedList (TimeEntry η α)
  /-- The next registration number. -/
  serial : ℕ

namespace TimerList

variable {η α : Type*}

/-- No timers. -/
def empty : TimerList η α := ⟨⟨none, ∅⟩, 0⟩

/-- The entries on the list, in list order. -/
def pending (l : TimerList η α) : List (TimeEntry η α) :=
  l.list.toList.map Prod.snd

/-! ### The edits -/

/-- `malloc` at the unused address `e` and the assignments that fill the new entry. -/
def alloc (l : TimerList η α) (e : ℕ) (x : TimeEntry η α) : Option (TimerList η α) :=
  if e ∈ l.list.heap then none
  else some { l with list := { l.list with heap := l.list.heap.insert e ⟨x, none⟩ } }

/-- The locked section of `sys_timeout`: search from `&g_time_head` past every deadline that is not
greater, then link the entry in. -/
def insertEntry (l : TimerList η α) (e : ℕ) : Option (TimerList η α) :=
  (l.list.heap.lookup e).bind fun c ↦
    let list : RootedList (TimeEntry η α) :=
      { l.list with heap := l.list.heap.insert e { c with val := { c.val with serial := l.serial } } }
    (list.seek (fun x ↦ decide (x.whenMs ≤ c.val.whenMs)) (list.heap.keys.card + 1) .root).bind
      fun pp ↦ (list.splice pp e).map fun list ↦ ⟨list, l.serial + 1⟩

/-- `sys_timeout`, called at time `now` with `e` the result of `malloc`. -/
def sysTimeout (now msecs : U32) (handler : Option η) (arg : α) (e : Option ℕ)
    (l : TimerList η α) : Option (TimerList η α) :=
  match handler, e with
  | some h, some e => (l.alloc e ⟨now + msecs, h, arg, 0⟩).bind fun l ↦ l.insertEntry e
  | _, _ => some l

/-- `sys_untimeout`. -/
def sysUntimeout [DecidableEq η] [DecidableEq α] (handler : Option η) (arg : α)
    (l : TimerList η α) : Option (TimerList η α) :=
  match handler with
  | none => some l
  | some h =>
    (RootedList.removeAll (TimeEntry.isFor h arg) (l.list.heap.keys.card + 1) .root l.list).map fun list ↦
      { l with list := list }

/-- The locked section of the drain loop: nothing if the list is empty or its head is not due, else
the head, popped. -/
def popDue (now : U32) (l : TimerList η α) : Option (ℕ × TimerList η α) :=
  l.list.root.bind fun e ↦ (l.list.heap.lookup e).bind fun c ↦
    if 0 < c.val.remaining now then none
    else some (e, { l with list := { l.list with root := c.next } })

/-- The end of a round of the drain loop: `free(e)`. -/
def freeEntry (l : TimerList η α) (e : ℕ) : TimerList η α :=
  { l with list := { l.list with heap := l.list.heap.erase e } }

/-- The drain loop of `timer_thread_fn` at a fixed `now`, with handlers that register nothing: the
entries whose handlers run, in order, and the list that is left. -/
def drain (now : U32) : ℕ → TimerList η α → List (TimeEntry η α) × TimerList η α
  | 0, l => ([], l)
  | fuel + 1, l =>
    match l.popDue now with
    | none => ([], l)
    | some (e, l) =>
      match l.list.heap.lookup e with
      | none => ([], l)
      | some c => ((c.val :: (drain now fuel (l.freeEntry e)).1), (drain now fuel (l.freeEntry e)).2)

/-! ### What the edits do to the list -/

variable {l l' : TimerList η α} {xs : List (ℕ × TimeEntry η α)}

theorem pending_eq (h : l.list.Holds xs) : l.pending = xs.map Prod.snd := by
  rw [pending, h.toList_eq]

/-- Where `sys_timeout` puts an entry: behind the longest prefix of deadlines that are not
greater. -/
def insertAt (xs : List (ℕ × TimeEntry η α)) (y : ℕ × TimeEntry η α) :
    List (ℕ × TimeEntry η α) :=
  xs.takeWhile (fun x ↦ decide (x.2.whenMs ≤ y.2.whenMs)) ++
    y :: xs.dropWhile (fun x ↦ decide (x.2.whenMs ≤ y.2.whenMs))

/-- An allocated entry that is not on the list goes on it, and no other cell is touched. -/
theorem insertEntry_eq (h : l.list.Holds xs) {e : ℕ} {x : TimeEntry η α} {q : Option ℕ}
    (he : l.list.heap.lookup e = some ⟨x, q⟩) (hnew : e ∉ xs.map Prod.fst) :
    ∃ l', l.insertEntry e = some l' ∧
      l'.list.Holds (insertAt xs (e, { x with serial := l.serial })) ∧
      l'.serial = l.serial + 1 ∧
      ∀ a, a ≠ e → a ∉ xs.map Prod.fst → l'.list.heap.lookup a = l.list.heap.lookup a := by
  set y : TimeEntry η α := { x with serial := l.serial } with hy
  set l₁ : RootedList (TimeEntry η α) :=
    { l.list with heap := l.list.heap.insert e ⟨y, q⟩ } with hl₁
  have hxs : l₁.Holds xs := Links.insert_of_notMem h hnew _
  have hroot : l₁.heap.Links l₁.root [] l₁.root := rfl
  have hseek := RootedList.seek_slotAfter (fun z ↦ decide (z.whenMs ≤ x.whenMs)) hroot hxs
    (Nat.lt_succ_of_le hxs.length_le)
  rw [RootedList.slotAfter_nil, List.nil_append] at hseek
  set pre := xs.takeWhile fun z ↦ decide (z.2.whenMs ≤ x.whenMs) with hpre
  set post := xs.dropWhile fun z ↦ decide (z.2.whenMs ≤ x.whenMs) with hpost
  have hsplit : pre ++ post = xs := List.takeWhile_append_dropWhile
  obtain ⟨l₂, hsplice, hl₂, hframe⟩ := RootedList.splice_slotAfter (v := y) (q := q)
    (hsplit ▸ hxs : l₁.Holds (pre ++ post)) (Finmap.lookup_insert _) (hsplit ▸ hnew)
  refine ⟨⟨l₂, l.serial + 1⟩, ?_, hl₂, rfl, fun a hae hax ↦ ?_⟩
  · simp only [insertEntry, he, Option.bind_some]
    rw [hseek]
    exact congrArg (Option.map fun list ↦ (⟨list, l.serial + 1⟩ : TimerList η α)) hsplice
  · rw [hframe a (by rw [List.map_cons, List.mem_cons, hsplit, not_or]; exact ⟨hae, hax⟩)]
    exact Finmap.lookup_insert_of_ne _ hae

/-- `sys_timeout` registers an entry with the deadline `now + msecs`. -/
theorem sysTimeout_eq (h : l.list.Holds xs) (now msecs : U32) (hd : η) (a : α) {e : ℕ}
    (he : e ∉ l.list.heap) :
    ∃ l', sysTimeout now msecs (some hd) a (some e) l = some l' ∧
      l'.list.Holds (insertAt xs (e, ⟨now + msecs, hd, a, l.serial⟩)) ∧
      l'.serial = l.serial + 1 := by
  have hnew : e ∉ xs.map Prod.fst := fun hx ↦ he (h.mem_heap hx)
  set l₁ : TimerList η α :=
    { l with list := { l.list with heap := l.list.heap.insert e ⟨⟨now + msecs, hd, a, 0⟩, none⟩ } }
    with hl₁
  obtain ⟨l', hins, hl', hser, -⟩ := insertEntry_eq (l := l₁) (Links.insert_of_notMem h hnew _)
    (Finmap.lookup_insert _) hnew
  exact ⟨l', by simp only [sysTimeout, alloc, he, if_false, Option.bind_some]; exact hins, hl', hser⟩

/-- `sys_untimeout` removes all and only the entries with its handler and argument. -/
theorem sysUntimeout_eq [DecidableEq η] [DecidableEq α] (h : l.list.Holds xs) (hd : η) (a : α) :
    ∃ l', sysUntimeout (some hd) a l = some l' ∧
      l'.list.Holds (xs.filter fun x ↦ !x.2.isFor hd a) ∧ l'.serial = l.serial ∧
      ∀ b ∉ xs.map Prod.fst, l'.list.heap.lookup b = l.list.heap.lookup b := by
  obtain ⟨list, hrem, hlist, hframe⟩ := RootedList.removeAll_slotAfter (TimeEntry.isFor hd a) [] h
    (Nat.lt_succ_of_le h.length_le)
  rw [RootedList.slotAfter_nil] at hrem
  exact ⟨{ l with list := list }, by simp [sysUntimeout, hrem], hlist, rfl, hframe⟩

theorem popDue_nil (h : l.list.Holds []) (now : U32) : l.popDue now = none := by
  have hroot : l.list.root = none := h
  simp [popDue, hroot]

/-- The pop takes the head exactly when it is due, and leaves its cell allocated. -/
theorem popDue_cons {e : ℕ} {x : TimeEntry η α} (h : l.list.Holds ((e, x) :: xs)) (now : U32) :
    ∃ r, l.list.heap.lookup e = some ⟨x, r⟩ ∧ l.list.heap.Links r xs none ∧
      l.popDue now = if x.due now then some (e, { l with list := { l.list with root := r } })
        else none := by
  obtain ⟨hroot, r, hr, hxs⟩ := h
  refine ⟨r, hr, hxs, ?_⟩
  by_cases hdue : x.remaining now ≤ 0
  · simp [popDue, hroot, hr, TimeEntry.due, hdue]
  · simp [popDue, hroot, hr, TimeEntry.due, hdue, not_le.1 hdue]

/-- **The drain pops the longest due prefix** of the list and leaves the rest. -/
theorem drain_eq (h : l.list.Holds xs) (now : U32) {fuel : ℕ} (hf : xs.length ≤ fuel) :
    ∃ l', drain now fuel l = ((xs.takeWhile fun x ↦ x.2.due now).map Prod.snd, l') ∧
      l'.list.Holds (xs.dropWhile fun x ↦ x.2.due now) := by
  induction xs generalizing l fuel with
  | nil =>
    refine ⟨l, ?_, h⟩
    cases fuel with
    | zero => rfl
    | succ fuel => simp [drain, popDue_nil h]
  | cons x xs ih =>
    obtain ⟨e, x⟩ := x
    rw [List.length_cons] at hf
    obtain ⟨fuel, rfl⟩ : ∃ n, fuel = n + 1 := ⟨fuel - 1, by omega⟩
    have hnd := h.nodup
    rw [List.map_cons, List.nodup_cons] at hnd
    obtain ⟨r, hr, hxs, hpop⟩ := popDue_cons h now
    by_cases hdue : x.due now
    · rw [if_pos hdue] at hpop
      obtain ⟨l', hl', hhold⟩ := ih
        (l := TimerList.freeEntry { l with list := { l.list with root := r } } e)
        (hxs.erase_of_notMem hnd.1) (by omega : xs.length ≤ fuel)
      refine ⟨l', ?_, by simpa [hdue] using hhold⟩
      simp [drain, hpop, hr, hl', hdue]
    · rw [if_neg hdue] at hpop
      exact ⟨l, by simp [drain, hpop, hdue], by simpa [hdue] using h⟩

/-! ### The order of the list -/

/-- The order in which `sys_timeout` keeps the list: by absolute deadline, ties by registration. -/
def Before (x y : TimeEntry η α) : Prop :=
  x.whenMs < y.whenMs ∨ x.whenMs = y.whenMs ∧ x.serial < y.serial

/-- The list is sorted and its entries are numbered. -/
structure Inv (l : TimerList η α) (xs : List (ℕ × TimeEntry η α)) : Prop where
  /-- The cells on the list. -/
  holds : l.list.Holds xs
  /-- They are in order. -/
  ordered : xs.Pairwise fun x y ↦ Before x.2 y.2
  /-- Every registration number has been given out. -/
  serial_lt : ∀ x ∈ xs, x.2.serial < l.serial

theorem empty_inv : (empty : TimerList η α).Inv [] where
  holds := rfl
  ordered := List.Pairwise.nil
  serial_lt _ hx := absurd hx List.not_mem_nil

/-- Everything behind the insertion point has a later absolute deadline. -/
theorem lt_of_mem_dropWhile {w : U32} (hxs : xs.Pairwise fun x y ↦ Before x.2 y.2)
    {x : ℕ × TimeEntry η α} (hx : x ∈ xs.dropWhile fun x ↦ decide (x.2.whenMs ≤ w)) :
    w < x.2.whenMs := by
  induction xs with
  | nil => exact absurd hx List.not_mem_nil
  | cons y ys ih =>
    rw [List.pairwise_cons] at hxs
    by_cases hy : y.2.whenMs ≤ w
    · rw [List.dropWhile_cons_of_pos (by simpa using hy)] at hx
      exact ih hxs.2 hx
    · rw [List.dropWhile_cons_of_neg (by simpa using hy)] at hx
      have hyw : w < y.2.whenMs := BitVec.not_le.1 hy
      rcases List.mem_cons.1 hx with rfl | hx
      · exact hyw
      · rcases hxs.1 x hx with hlt | ⟨heq, -⟩
        · exact BitVec.lt_trans hyw hlt
        · exact heq ▸ hyw

theorem Inv.insertAt (h : l.Inv xs) {y : ℕ × TimeEntry η α} (hy : y.2.serial = l.serial) :
    (insertAt xs y).Pairwise (fun x y ↦ Before x.2 y.2) ∧
      ∀ x ∈ insertAt xs y, x.2.serial < l.serial + 1 := by
  have hsplit := List.takeWhile_append_dropWhile
    (p := fun x : ℕ × TimeEntry η α ↦ decide (x.2.whenMs ≤ y.2.whenMs)) (l := xs)
  have hord := h.ordered
  rw [← hsplit, List.pairwise_append] at hord
  have hpost := fun {x} ↦ lt_of_mem_dropWhile (w := y.2.whenMs) (x := x) h.ordered
  constructor
  · refine List.pairwise_append.2 ⟨hord.1, List.pairwise_cons.2 ⟨fun x hx ↦ Or.inl (hpost hx),
      hord.2.1⟩, fun x hx z hz ↦ ?_⟩
    rcases List.mem_cons.1 hz with rfl | hz
    · have hle : x.2.whenMs ≤ z.2.whenMs := by simpa using List.mem_takeWhile_imp hx
      have hser : x.2.serial < z.2.serial :=
        hy ▸ h.serial_lt x (List.takeWhile_subset _ hx)
      by_cases heq : x.2.whenMs = z.2.whenMs
      · exact Or.inr ⟨heq, hser⟩
      · exact Or.inl (BitVec.lt_of_le_ne hle heq)
    · exact hord.2.2 x hx z hz
  · intro x hx
    have hmem : x ∈ xs ∨ x = y := by
      rcases List.mem_append.1 hx with hx | hx
      · exact Or.inl (List.takeWhile_subset _ hx)
      · rcases List.mem_cons.1 hx with rfl | hx
        · exact Or.inr rfl
        · exact Or.inl (List.dropWhile_subset _ hx)
    rcases hmem with hx | rfl
    · exact Nat.lt_succ_of_lt (h.serial_lt x hx)
    · omega

/-! ### The order of the deadlines -/

/-- Relative deadlines tell absolute ones apart. -/
theorem remaining_inj {now : U32} {x y : TimeEntry η α} :
    x.remaining now = y.remaining now ↔ x.whenMs = y.whenMs := by
  rw [TimeEntry.remaining, TimeEntry.remaining, BitVec.toInt_inj, sub_left_inj]

/-- **What a drain at `now` should do** to the list `before`: run the handlers of exactly the due
entries, by increasing deadline relative to `now` and, at equal deadlines, in registration order,
and leave the others in the order they were in. -/
structure DrainCorrect (now : U32) (before popped after : List (TimeEntry η α)) : Prop where
  /-- Exactly the due entries are popped. -/
  exact : popped.Perm (before.filter (TimeEntry.due now))
  /-- They are popped in the order of their deadlines. -/
  ordered : popped.Pairwise fun x y ↦ x.remaining now < y.remaining now ∨
    x.remaining now = y.remaining now ∧ x.serial < y.serial
  /-- The others stay. -/
  rest : after = before.filter fun x ↦ !x.due now

/-- The two orders agree in front of every due entry: no entry that the list puts before a due one
because of its absolute deadline is due after it. -/
def WrapFree (now : U32) (before : List (TimeEntry η α)) : Prop :=
  ∀ x ∈ before, ∀ y ∈ before, y.due now = true → x.whenMs < y.whenMs →
    x.remaining now ≤ y.remaining now

/-- If what is due is always preceded by what is due, the longest due prefix is all that is due. -/
theorem takeWhile_eq_filter {β : Type*} {p : β → Bool} {ys : List β}
    (h : ys.Pairwise fun x y ↦ p y = true → p x = true) :
    ys.takeWhile p = ys.filter p ∧ ys.dropWhile p = ys.filter fun y ↦ !p y := by
  induction ys with
  | nil => exact ⟨rfl, rfl⟩
  | cons y ys ih =>
    rw [List.pairwise_cons] at h
    by_cases hy : p y = true
    · simp [hy, ih h.2]
    · have hnone : ∀ z ∈ ys, p z = false := fun z hz ↦
        Bool.eq_false_iff.2 fun hpz ↦ hy (h.1 z hz hpz)
      constructor
      · simpa [hy] using hnone
      · rw [List.dropWhile_cons_of_neg hy, eq_comm, List.filter_eq_self]
        intro z hz
        rcases List.mem_cons.1 hz with rfl | hz
        · simp [hy]
        · simp [hnone z hz]

/-- On a sorted list without a wrap, what precedes a due entry is due, and no later. -/
theorem WrapFree.remaining_le {now : U32} {ys : List (TimeEntry η α)} (h : WrapFree now ys)
    (hord : ys.Pairwise Before) :
    ys.Pairwise fun x y ↦ y.due now = true → x.remaining now ≤ y.remaining now ∧ Before x y := by
  refine hord.imp_of_mem fun {x y} hx hy hxy hdue ↦ ⟨?_, hxy⟩
  rcases hxy with hlt | ⟨heq, -⟩
  · exact h x hx y hy hdue hlt
  · exact (remaining_inj.2 heq).le

theorem WrapFree.drainCorrect {now : U32} {ys : List (TimeEntry η α)} (h : WrapFree now ys)
    (hord : ys.Pairwise Before) :
    DrainCorrect now ys (ys.takeWhile (TimeEntry.due now)) (ys.dropWhile (TimeEntry.due now)) := by
  have hle := h.remaining_le hord
  obtain ⟨htake, hdrop⟩ := takeWhile_eq_filter (p := TimeEntry.due now)
    (hle.imp fun {x y} hxy hy ↦ by
      have hy' : y.remaining now ≤ 0 := by simpa [TimeEntry.due] using hy
      have := (hxy hy).1
      simp only [TimeEntry.due, decide_eq_true_eq]
      omega)
  refine ⟨htake ▸ List.Perm.refl _, ?_, hdrop⟩
  rw [htake]
  refine (hle.filter _).imp_of_mem fun {x y} _ hy hxy ↦ ?_
  obtain ⟨hrem, hbefore⟩ := hxy (List.mem_filter.1 hy).2
  rcases lt_or_eq_of_le hrem with hlt | heq
  · exact Or.inl hlt
  · refine Or.inr ⟨heq, ?_⟩
    rcases hbefore with hlt | ⟨-, hser⟩
    · exact absurd (remaining_inj.1 heq) (BitVec.ne_of_lt hlt)
    · exact hser

theorem DrainCorrect.wrapFree {now : U32} {ys : List (TimeEntry η α)} (hord : ys.Pairwise Before)
    (h : DrainCorrect now ys (ys.takeWhile (TimeEntry.due now))
      (ys.dropWhile (TimeEntry.due now))) : WrapFree now ys := by
  intro x hx y hy hdue hlt
  -- the due entry `y` was popped, and `x` stands before it
  have hpop : y ∈ ys.takeWhile (TimeEntry.due now) :=
    h.exact.mem_iff.2 (List.mem_filter.2 ⟨hy, hdue⟩)
  obtain ⟨us, vs, husvs⟩ := List.append_of_mem hpop
  have hys : ys = us ++ y :: (vs ++ ys.dropWhile (TimeEntry.due now)) := by
    conv_lhs => rw [← List.takeWhile_append_dropWhile (p := TimeEntry.due now) (l := ys), husvs]
    simp
  have hnotafter : ¬ Before y x := by
    rintro (hyx | ⟨heq, -⟩)
    · exact absurd hlt (BitVec.not_lt.2 (BitVec.le_of_lt hyx))
    · exact absurd heq.symm (BitVec.ne_of_lt hlt)
  have hxus : x ∈ us := by
    rw [hys] at hx
    rcases List.mem_append.1 hx with hx | hx
    · exact hx
    · rcases List.mem_cons.1 hx with rfl | hx
      · exact absurd hlt (BitVec.lt_irrefl _)
      · rw [hys, List.pairwise_append, List.pairwise_cons] at hord
        exact absurd (hord.2.1.1 x hx) hnotafter
  have hpopped := h.ordered
  rw [husvs, List.pairwise_append] at hpopped
  rcases hpopped.2.2 x hxus y List.mem_cons_self with hlt | ⟨heq, -⟩
  · exact hlt.le
  · exact heq.le

/-! ### Reachable lists -/

/-- A call of `sys_timeout` at time `now`, or of `sys_untimeout`. -/
inductive Call (η α : Type*) where
  | timeout (now msecs : U32) (handler : Option η) (arg : α) (e : Option ℕ)
  | untimeout (handler : Option η) (arg : α)

section Calls

variable [DecidableEq η] [DecidableEq α]

/-- Execute a call. -/
def call : Call η α → TimerList η α → Option (TimerList η α)
  | .timeout now msecs handler arg e => sysTimeout now msecs handler arg e
  | .untimeout handler arg => sysUntimeout handler arg

theorem call_inv {c : Call η α} (h : l.Inv xs) (hc : call c l = some l') : ∃ xs', l'.Inv xs' := by
  cases c with
  | timeout now msecs handler arg e =>
    rcases handler with - | hd
    · obtain rfl := Option.some.inj hc
      exact ⟨xs, h⟩
    rcases e with - | e
    · obtain rfl := Option.some.inj hc
      exact ⟨xs, h⟩
    have he : e ∉ l.list.heap := by
      intro he
      simp [call, sysTimeout, TimerList.alloc, he] at hc
    obtain ⟨l₁, hl₁, hhold, hser⟩ := sysTimeout_eq h.holds now msecs hd arg he
    obtain rfl := Option.some.inj (hc.symm.trans hl₁)
    obtain ⟨hord, hlt⟩ := h.insertAt (y := (e, ⟨now + msecs, hd, arg, l.serial⟩)) rfl
    exact ⟨_, hhold, hord, hser ▸ hlt⟩
  | untimeout handler arg =>
    rcases handler with - | hd
    · obtain rfl := Option.some.inj hc
      exact ⟨xs, h⟩
    obtain ⟨l₁, hl₁, hhold, hser, -⟩ := sysUntimeout_eq h.holds hd arg
    obtain rfl := Option.some.inj (hc.symm.trans hl₁)
    exact ⟨_, hhold, h.ordered.filter _, fun x hx ↦ hser ▸ h.serial_lt x (List.mem_filter.1 hx).1⟩

/-- **Every reachable list is sorted by absolute deadline**, ties in registration order. -/
theorem run_inv {cs : List (Call η α)} (h : runLabels call cs empty = some l) : ∃ xs, l.Inv xs :=
  runLabels_invariant (I := fun l : TimerList η α ↦ ∃ xs, l.Inv xs) ⟨[], empty_inv⟩
    (fun _ _ _ ⟨_, hxs⟩ hc ↦ call_inv hxs hc) h

/-! ### The drain loop -/

/-- **When the drain loop is correct.** On every list reachable by calls of `sys_timeout` and
`sys_untimeout` at any times, and at every `now`, the drain loop pops exactly the due entries, in
the order of their deadlines relative to `now` with ties in registration order, and leaves the
others in their order, if and only if no entry with a smaller absolute deadline than a due entry is
due after it. -/
theorem drain_correct_iff (cs : List (Call η α)) (l : TimerList η α)
    (h : runLabels call cs empty = some l) (now : U32) :
    DrainCorrect now l.pending (drain now l.list.heap.keys.card l).1
      (drain now l.list.heap.keys.card l).2.pending ↔ WrapFree now l.pending := by
  obtain ⟨xs, hxs⟩ := run_inv h
  obtain ⟨l', hdrain, hl'⟩ := drain_eq hxs.holds now hxs.holds.length_le
  have hord : (xs.map Prod.snd).Pairwise Before := List.pairwise_map.2 hxs.ordered
  have htake : ((xs.takeWhile fun x ↦ x.2.due now).map Prod.snd) =
      (xs.map Prod.snd).takeWhile (TimeEntry.due now) := by
    rw [List.takeWhile_map]
    rfl
  have hdrop : ((xs.dropWhile fun x ↦ x.2.due now).map Prod.snd) =
      (xs.map Prod.snd).dropWhile (TimeEntry.due now) := by
    rw [List.dropWhile_map]
    rfl
  rw [hdrain, pending_eq hxs.holds, pending_eq hl', htake, hdrop]
  exact ⟨fun hcorrect ↦ hcorrect.wrapFree hord, fun hfree ↦ hfree.drainCorrect hord⟩

/-- Three timers away from the wrap, two of them due. -/
theorem drain_correct_away_from_wrap :
    ∃ l : TimerList ℕ ℕ,
      runLabels call [.timeout 100 50 (some 1) 0 (some 10), .timeout 100 20 (some 2) 0 (some 11),
        .timeout 110 10 (some 3) 0 (some 12)] empty = some l ∧
      (drain 120 l.list.heap.keys.card l).1.map TimeEntry.handler = [2, 3] ∧
      DrainCorrect 120 l.pending (drain 120 l.list.heap.keys.card l).1
        (drain 120 l.list.heap.keys.card l).2.pending := by
  refine ⟨_, rfl, rfl, ?_⟩
  refine (drain_correct_iff [.timeout 100 50 (some 1) 0 (some 10),
    .timeout 100 20 (some 2) 0 (some 11), .timeout 110 10 (some 3) 0 (some 12)] _ rfl 120).2 ?_
  unfold WrapFree
  decide

/-- **The drain loop misses an overdue timer.** Shortly before the clock wraps, one timer is
registered for 80 ms and one for 512 ms. The second deadline has wrapped, so its entry goes to the
front of the list; 96 ms later it is not due, the drain stops at it, and the first timer, overdue by
16 ms, does not run. -/
theorem drain_misses_overdue :
    ∃ l : TimerList ℕ ℕ,
      runLabels call [.timeout 0xffffff00 80 (some 1) 0 (some 10),
        .timeout 0xffffff00 512 (some 2) 0 (some 11)] empty = some l ∧
      l.pending.map (TimeEntry.remaining 0xffffff60) = [416, -16] ∧
      (drain 0xffffff60 l.list.heap.keys.card l).1 = [] ∧
      ¬ DrainCorrect 0xffffff60 l.pending (drain 0xffffff60 l.list.heap.keys.card l).1
        (drain 0xffffff60 l.list.heap.keys.card l).2.pending := by
  refine ⟨_, rfl, by decide, by decide, fun hcorrect ↦ ?_⟩
  exact absurd hcorrect.exact.length_eq (by decide)

end Calls

end TimerList

end Lwip.Port
