import LwipPoc.Arch
import LwipPoc.Foundation.LinkedHeap

/-!
# The port's mailboxes

The mailbox of `cwrap/sys_arch.c`: a bounded FIFO kept in three redundant pieces — the chain from
`head`, the `tail` pointer, and `count` — and edited by `sys_mbox_post`, `sys_mbox_trypost`,
`sys_arch_mbox_fetch` and `sys_mbox_free`, each inside the mailbox's own lock.

This module has the edits themselves, on a heap of nodes, and the representation invariant
`Mbox.Holds` that each of them keeps. Addresses returned by `malloc` are arguments and only have to
be unused; an edit is undefined (`none`) where the C code would dereference a null or dangling
pointer. Threads and waiting are in `MailboxThreads`.
-/

namespace Lwip.Port

open CellHeap

/-- The two compilation branches of `sys_arch.c`. -/
inductive Platform where
  | windows
  | posix
  deriving DecidableEq, Repr

/-- `mbox_t`, with the heap its nodes live in. A node `mbox_node_t` is a cell whose payload is the
message. -/
structure Mbox (μ : Type*) where
  /-- The number of messages the mailbox accepts before it is full. -/
  capacity : ℤ
  /-- The number of messages queued. -/
  count : ℤ
  /-- The oldest node. -/
  head : Option ℕ
  /-- The newest node. -/
  tail : Option ℕ
  /-- Cleared by `sys_mbox_free`. -/
  valid : Bool
  /-- The allocated nodes. -/
  heap : CellHeap μ

variable {μ : Type*}

namespace Mbox

/-- `sys_mbox_new`. -/
def sysMboxNew (size : ℤ) : Mbox μ where
  capacity := if 0 < size then size else 32
  count := 0
  head := none
  tail := none
  valid := true
  heap := ∅

/-- The link that `if (m->tail) m->tail->next = n; else m->head = n;` writes. -/
def tailSlot (m : Mbox μ) : Slot :=
  match m.tail with
  | none => .root
  | some t => .link t

/-- The common end of `sys_mbox_post` and `sys_mbox_trypost`: allocate a node at the unused address
`n`, chain it behind the tail and count it. -/
def enqueue (m : Mbox μ) (n : ℕ) (msg : μ) : Option (Mbox μ) :=
  if n ∈ m.heap then none
  else
    (RootedList.set ⟨m.head, m.heap.insert n ⟨msg, none⟩⟩ m.tailSlot (some n)).map fun l ↦
      { m with head := l.root, heap := l.heap, tail := some n, count := m.count + 1 }

/-- The dequeue of `sys_arch_mbox_fetch`: unchain and free the head node. Undefined — a null
dereference — when there is no head. -/
def dequeue (m : Mbox μ) : Option (μ × Mbox μ) :=
  m.head.bind fun n ↦ (m.heap.lookup n).map fun c ↦
    (c.val, { m with
      head := c.next
      tail := if c.next = none then none else m.tail
      count := m.count - 1
      heap := m.heap.erase n })

/-- `sys_mbox_trypost`. -/
def sysMboxTrypost (m : Mbox μ) (n : ℕ) (msg : μ) : Option (ErrT × Mbox μ) :=
  if m.capacity ≤ m.count then some (.mem, m)
  else (m.enqueue n msg).map fun m ↦ (.ok, m)

/-- `sys_mbox_free`, as far as the mailbox itself goes: invalidate it, free every node and forget
them. -/
def sysMboxFree (m : Mbox μ) : Option (Mbox μ) :=
  (freeAll m.heap.keys.card m.head m.heap).map fun h ↦
    { m with valid := false, head := none, tail := none, count := 0, heap := h }

/-! ### The representation invariant -/

/-- The mailbox represents the queue of nodes `xs`, oldest first. -/
structure Holds (m : Mbox μ) (xs : List (ℕ × μ)) : Prop where
  /-- The chain from `head` is null-terminated and visits exactly `xs`. -/
  nodes : m.heap.Links m.head xs none
  /-- `tail` is the last node. -/
  tail : m.tail = xs.getLast?.map Prod.fst
  /-- `count` is the number of nodes. -/
  count : m.count = xs.length
  /-- The mailbox is never overfull. -/
  le_capacity : m.count ≤ m.capacity

variable {m m' : Mbox μ} {xs : List (ℕ × μ)}

theorem holds_sysMboxNew (size : ℤ) : (sysMboxNew size : Mbox μ).Holds [] where
  nodes := rfl
  tail := rfl
  count := rfl
  le_capacity := by
    unfold sysMboxNew
    dsimp only
    split <;> omega

theorem Holds.tailSlot_eq (h : m.Holds xs) : m.tailSlot = RootedList.slotAfter xs := by
  rw [tailSlot, h.tail, RootedList.slotAfter]
  cases xs.getLast? <;> rfl

/-- `head` and `tail` are null together. -/
theorem Holds.tail_eq_none_iff (h : m.Holds xs) : m.tail = none ↔ m.head = none := by
  have hnodes := h.nodes
  rw [h.tail, Option.map_eq_none_iff, List.getLast?_eq_none_iff]
  cases xs with
  | nil =>
    rw [links_nil] at hnodes
    simpa using hnodes
  | cons x xs =>
    have hhead : m.head = some x.1 := hnodes.1
    simp [hhead]

/-- The two tests for an empty mailbox agree. -/
theorem Holds.head_ne_none_iff (h : m.Holds xs) : m.head ≠ none ↔ 0 < m.count := by
  rw [ne_eq, ← h.tail_eq_none_iff, h.tail, Option.map_eq_none_iff, List.getLast?_eq_none_iff,
    h.count]
  cases xs with
  | nil => simp
  | cons x xs =>
    simp only [List.length_cons, reduceCtorEq, not_false_eq_true, true_iff]
    omega

/-- **Enqueueing** on a mailbox with room succeeds at any unused address and appends the message. -/
theorem Holds.enqueue_eq (h : m.Holds xs) (hroom : m.count < m.capacity) {n : ℕ}
    (hn : n ∉ m.heap) (msg : μ) :
    ∃ m', m.enqueue n msg = some m' ∧ m'.Holds (xs ++ [(n, msg)]) ∧ m'.capacity = m.capacity := by
  have hnew : n ∉ xs.map Prod.fst := fun hx ↦ hn (h.nodes.mem_heap hx)
  obtain ⟨l, hset, hl, hframe⟩ :=
    RootedList.set_slotAfter (l := ⟨m.head, m.heap.insert n ⟨msg, none⟩⟩)
      (h.nodes.insert_of_notMem hnew _) h.nodes.nodup (some n)
  refine ⟨{ m with head := l.root, heap := l.heap, tail := some n, count := m.count + 1 },
    by simp [enqueue, hn, h.tailSlot_eq, hset], ⟨?_, by simp, by simp [h.count], ?_⟩, rfl⟩
  · refine links_append.2 ⟨some n, hl, rfl, none, ?_, rfl⟩
    exact (hframe n hnew).trans (Finmap.lookup_insert _)
  · show m.count + 1 ≤ m.capacity
    omega

/-- **Dequeueing** a mailbox that holds a message yields the oldest one and frees its node. -/
theorem Holds.dequeue_cons {n : ℕ} {msg : μ} (h : m.Holds ((n, msg) :: xs)) :
    ∃ m', m.dequeue = some (msg, m') ∧ m'.Holds xs ∧ m'.capacity = m.capacity := by
  have hnd := h.nodes.nodup
  obtain ⟨hhead, r, hr, hxs⟩ := h.nodes
  rw [List.map_cons, List.nodup_cons] at hnd
  refine ⟨{ m with
      head := r
      tail := if r = none then none else m.tail
      count := m.count - 1
      heap := m.heap.erase n },
    by simp [dequeue, hhead, hr], ⟨hxs.erase_of_notMem hnd.1, ?_, ?_, ?_⟩, rfl⟩
  · -- the tail survives unless the list became empty, which the new head shows
    cases xs with
    | nil =>
      rw [links_nil] at hxs
      simp [hxs]
    | cons x xs =>
      have hr : r = some x.1 := hxs.1
      simp [hr, h.tail]
  · have := h.count
    rw [List.length_cons] at this
    show m.count - 1 = _
    omega
  · have := h.le_capacity
    show m.count - 1 ≤ m.capacity
    omega

/-- A dequeue that is defined keeps the mailbox a queue, and leaves `valid` alone. -/
theorem Holds.of_dequeue {msg : μ} (h : m.Holds xs) (hdeq : m.dequeue = some (msg, m')) :
    ∃ ys, m'.Holds ys ∧ m'.valid = m.valid := by
  cases xs with
  | nil =>
    have hhead : m.head = none := h.nodes
    rw [dequeue, hhead] at hdeq
    cases hdeq
  | cons x xs =>
    obtain ⟨m₁, hm₁, hholds, -⟩ := h.dequeue_cons
    obtain ⟨rfl, rfl⟩ := Prod.mk.inj (Option.some.inj (hdeq.symm.trans hm₁))
    refine ⟨xs, hholds, ?_⟩
    obtain ⟨n, -, hn⟩ := Option.bind_eq_some_iff.1 hdeq
    obtain ⟨c, -, hc⟩ := Option.map_eq_some_iff.1 hn
    rw [← (Prod.mk.inj hc).2]

/-- A post keeps the mailbox a queue, and leaves `valid` alone. -/
theorem Holds.of_trypost {n : ℕ} {msg : μ} {err : ErrT} (h : m.Holds xs)
    (hpost : m.sysMboxTrypost n msg = some (err, m')) :
    ∃ ys, m'.Holds ys ∧ m'.valid = m.valid := by
  rw [sysMboxTrypost] at hpost
  split_ifs at hpost with hfull
  · obtain ⟨-, rfl⟩ := Prod.mk.inj (Option.some.inj hpost)
    exact ⟨xs, h, rfl⟩
  · obtain ⟨m₁, henq, hm₁⟩ := Option.map_eq_some_iff.1 hpost
    obtain ⟨-, rfl⟩ := Prod.mk.inj hm₁
    obtain ⟨hn, hset⟩ := Option.ite_none_left_eq_some.1 henq
    obtain ⟨m₂, hm₂, hholds, -⟩ := h.enqueue_eq (not_le.1 hfull) hn msg
    obtain rfl := Option.some.inj (henq.symm.trans hm₂)
    obtain ⟨l, -, hl⟩ := Option.map_eq_some_iff.1 hset
    exact ⟨_, hholds, by rw [← hl]⟩

/-- **Freeing** the mailbox empties it. -/
theorem Holds.sysMboxFree_eq (h : m.Holds xs) :
    ∃ m', m.sysMboxFree = some m' ∧ m'.Holds [] ∧ m'.capacity = m.capacity := by
  obtain ⟨h', hfree, -⟩ := h.nodes.freeAll_eq h.nodes.length_le
  refine ⟨{ m with valid := false, head := none, tail := none, count := 0, heap := h' },
    by simp [sysMboxFree, hfree], ⟨rfl, rfl, rfl, ?_⟩, rfl⟩
  have hcount := h.count
  have hle := h.le_capacity
  show (0 : ℤ) ≤ m.capacity
  omega

/-- **`sys_mbox_trypost`** fails exactly on a full mailbox, and then changes nothing; otherwise it
appends the message. -/
theorem Holds.sysMboxTrypost_eq (h : m.Holds xs) {n : ℕ} (hn : n ∉ m.heap) (msg : μ) :
    ∃ err m', m.sysMboxTrypost n msg = some (err, m') ∧
      (err = .mem ↔ m.count = m.capacity) ∧ (err = .mem → m' = m) ∧
      (err ≠ .mem → err = .ok ∧ m'.Holds (xs ++ [(n, msg)])) := by
  have hle := h.le_capacity
  by_cases hfull : m.capacity ≤ m.count
  · exact ⟨.mem, m, by simp [sysMboxTrypost, hfull], by simp; omega, fun _ ↦ rfl,
      fun hne ↦ absurd rfl hne⟩
  · obtain ⟨m', henq, hm', -⟩ := h.enqueue_eq (by omega) hn msg
    exact ⟨.ok, m', by simp [sysMboxTrypost, hfull, henq], by simp; omega,
      fun hmem ↦ absurd hmem (by decide), fun _ ↦ ⟨rfl, hm'⟩⟩

end Mbox

end Lwip.Port
