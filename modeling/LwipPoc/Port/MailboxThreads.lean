import LwipPoc.Foundation.Execution
import LwipPoc.Port.Mailbox

/-!
# The mailbox under any number of threads

A lock-held section of `sys_mbox_post`, `sys_mbox_trypost`, `sys_arch_mbox_fetch` or `sys_mbox_free`
is one step. A condition wait releases the lock, so a blocked thread is a program counter, and
waking it — by a signal, spuriously, or because its timeout elapsed — starts a further section. Every
blocked thread may wake at any moment: that is more than a real scheduler does, so what holds of
every execution here holds of every interleaving there.

* `mbox_fifo` — as long as nobody frees the mailbox, it is a FIFO at every moment: what was fetched
  followed by what is queued is what was accepted.
* `fetch_section_sound_iff` — with `sys_mbox_free`, a fetch that has left its wait loop dequeues a
  message that is there, or returns `SYS_ARCH_TIMEOUT`, in every reachable state **except** in one
  branch: the POSIX fetch without a timeout leaves its loop when the mailbox is no longer valid and
  dequeues without looking at `count` again.
-/

namespace Lwip.Port

variable {τ μ : Type*}

/-- Where a thread stands with respect to the mailbox: outside of it, or blocked in the wait of
`sys_mbox_post` or of `sys_arch_mbox_fetch`. -/
inductive MboxPc (μ : Type*) where
  | running
  | posting (msg : μ)
  | fetching (timeout : U32)

/-- The mailbox, its threads, and the history of messages accepted and fetched. -/
structure MboxSystem (τ μ : Type*) where
  /-- The mailbox. -/
  mbox : Mbox μ
  /-- Where each thread stands. -/
  pc : τ → MboxPc μ
  /-- The messages accepted so far, in order of acceptance. -/
  accepted : List μ
  /-- The messages fetched so far, in order. -/
  fetched : List μ

/-- The sections. `n` is the address `malloc` returns in a section that allocates. -/
inductive MboxLabel (τ μ : Type*) where
  | post (t : τ) (msg : μ) (n : ℕ)
  | postWake (t : τ) (n : ℕ)
  | trypost (t : τ) (msg : μ) (n : ℕ)
  | fetch (t : τ) (timeout : U32)
  | fetchWake (t : τ) (timedOut : Bool)
  | free
  deriving DecidableEq

/-- How a section of `sys_arch_mbox_fetch` begins: at the entry of the call, or on return from the
condition wait, whose result says whether it timed out. -/
inductive FetchStart where
  | entered
  | woken (timedOut : Bool)
  deriving DecidableEq, Repr

/-- What a section of `sys_arch_mbox_fetch` does once it has looked at the mailbox. -/
inductive FetchNext where
  | wait
  | giveUp
  | dequeue
  deriving DecidableEq, Repr

/-- The return value of the call, if the section ends it. -/
def FetchNext.ret : FetchNext → Option U32
  | .wait => none
  | .giveUp => some sysArchTimeout
  | .dequeue => some 0

/-- The control flow of a section of `sys_arch_mbox_fetch`, loop tests included. On Windows a timed
wait is done once whatever its result; on POSIX it is repeated until it times out. -/
def fetchNext (plat : Platform) (timeout : U32) (start : FetchStart) (m : Mbox μ) : FetchNext :=
  match plat with
  | .windows =>
    if m.count = 0 ∧ m.valid = true ∧ (start = .entered ∨ timeout = 0) then .wait
    else if m.count = 0 then .giveUp
    else .dequeue
  | .posix =>
    if timeout = 0 then
      if m.count = 0 ∧ m.valid = true then .wait else .dequeue
    else if m.count = 0 ∧ m.valid = true ∧ start ≠ .woken true then .wait
    else if m.count = 0 then .giveUp
    else .dequeue

namespace MboxSystem

variable [DecidableEq τ]

/-- The system after `sys_mbox_new`. -/
def init (size : ℤ) : MboxSystem τ μ where
  mbox := .sysMboxNew size
  pc _ := .running
  accepted := []
  fetched := []

/-- A section of `sys_mbox_post`: wait while the mailbox is full, else enqueue. -/
def postSection (s : MboxSystem τ μ) (t : τ) (msg : μ) (n : ℕ) : Option (MboxSystem τ μ) :=
  if s.mbox.capacity ≤ s.mbox.count then
    some { s with pc := Function.update s.pc t (.posting msg) }
  else
    (s.mbox.enqueue n msg).map fun m ↦
      { s with
        mbox := m
        pc := Function.update s.pc t .running
        accepted := s.accepted ++ [msg] }

/-- A section of `sys_arch_mbox_fetch`. Undefined where the dequeue is. -/
def fetchSection (plat : Platform) (s : MboxSystem τ μ) (t : τ) (timeout : U32)
    (start : FetchStart) : Option (MboxSystem τ μ) :=
  match fetchNext plat timeout start s.mbox with
  | .wait => some { s with pc := Function.update s.pc t (.fetching timeout) }
  | .giveUp => some { s with pc := Function.update s.pc t .running }
  | .dequeue =>
    s.mbox.dequeue.map fun r ↦
      { s with
        mbox := r.2
        pc := Function.update s.pc t .running
        fetched := s.fetched ++ [r.1] }

/-- One section. A call starts only on a thread that is not blocked, a wakeup resumes the section
that blocked, and a wait without a timeout does not time out. -/
def step (plat : Platform) : MboxLabel τ μ → MboxSystem τ μ → Option (MboxSystem τ μ)
  | .post t msg n, s =>
    match s.pc t with
    | .running => s.postSection t msg n
    | _ => none
  | .postWake t n, s =>
    match s.pc t with
    | .posting msg => s.postSection t msg n
    | _ => none
  | .trypost t msg n, s =>
    match s.pc t with
    | .running =>
      (s.mbox.sysMboxTrypost n msg).map fun r ↦
        { s with
          mbox := r.2
          accepted := if r.1 = .mem then s.accepted else s.accepted ++ [msg] }
    | _ => none
  | .fetch t timeout, s =>
    match s.pc t with
    | .running => s.fetchSection plat t timeout .entered
    | _ => none
  | .fetchWake t timedOut, s =>
    match s.pc t with
    | .fetching timeout =>
      if timedOut = true ∧ timeout = 0 then none
      else s.fetchSection plat t timeout (.woken timedOut)
    | _ => none
  | .free, s => s.mbox.sysMboxFree.map fun m ↦ { s with mbox := m }

/-! ### What a section can do -/

/-- A section that frees nothing moves the queue `xs` to `xs'` by appending the messages it accepts
and removing, at the front, the messages it fetches; both are recorded in the history. -/
def Passes (s s' : MboxSystem τ μ) (xs xs' : List (ℕ × μ)) : Prop :=
  ∃ ins outs : List μ, s'.accepted = s.accepted ++ ins ∧ s'.fetched = s.fetched ++ outs ∧
    xs.map Prod.snd ++ ins = outs ++ xs'.map Prod.snd

variable {plat : Platform} {s s' : MboxSystem τ μ} {xs : List (ℕ × μ)}

omit [DecidableEq τ] in
/-- A section that leaves the mailbox and the history alone. -/
theorem passes_of_eq (hacc : s'.accepted = s.accepted) (hfet : s'.fetched = s.fetched) :
    s.Passes s' xs xs :=
  ⟨[], [], by simp [hacc], by simp [hfet], by simp⟩

theorem postSection_holds {t : τ} {msg : μ} {n : ℕ} (h : s.mbox.Holds xs)
    (hstep : s.postSection t msg n = some s') :
    ∃ xs', s'.mbox.Holds xs' ∧ s'.mbox.capacity = s.mbox.capacity ∧ s.Passes s' xs xs' := by
  unfold postSection at hstep
  split at hstep
  · obtain rfl := Option.some.inj hstep
    exact ⟨xs, h, rfl, passes_of_eq rfl rfl⟩
  · obtain ⟨m, henq, rfl⟩ := Option.map_eq_some_iff.1 hstep
    have hn : n ∉ s.mbox.heap := by
      intro hn
      simp [Mbox.enqueue, hn] at henq
    obtain ⟨m', henq', hm', hcap⟩ := h.enqueue_eq (by omega) hn msg
    obtain rfl := Option.some.inj (henq.symm.trans henq')
    exact ⟨_, hm', hcap, [msg], [], by simp, by simp, by simp⟩

omit [DecidableEq τ] in
theorem trypost_holds {msg : μ} {n : ℕ} {r : ErrT × Mbox μ} (h : s.mbox.Holds xs)
    (hr : s.mbox.sysMboxTrypost n msg = some r) (hmbox : s'.mbox = r.2)
    (hacc : s'.accepted = if r.1 = .mem then s.accepted else s.accepted ++ [msg])
    (hfet : s'.fetched = s.fetched) :
    ∃ xs', s'.mbox.Holds xs' ∧ s'.mbox.capacity = s.mbox.capacity ∧ s.Passes s' xs xs' := by
  unfold Mbox.sysMboxTrypost at hr
  split at hr
  · obtain rfl := Option.some.inj hr
    refine ⟨xs, by rw [hmbox]; exact h, by rw [hmbox], passes_of_eq (by simp [hacc]) hfet⟩
  · obtain ⟨m, henq, rfl⟩ := Option.map_eq_some_iff.1 hr
    have hn : n ∉ s.mbox.heap := by
      intro hn
      simp [Mbox.enqueue, hn] at henq
    obtain ⟨m', henq', hm', hcap⟩ := h.enqueue_eq (by omega) hn msg
    obtain rfl := Option.some.inj (henq.symm.trans henq')
    exact ⟨_, by rw [hmbox]; exact hm', by rw [hmbox]; exact hcap, [msg], [], by simp [hacc],
      by simp [hfet], by simp⟩

theorem fetchSection_holds {t : τ} {timeout : U32} {start : FetchStart} (h : s.mbox.Holds xs)
    (hstep : s.fetchSection plat t timeout start = some s') :
    ∃ xs', s'.mbox.Holds xs' ∧ s'.mbox.capacity = s.mbox.capacity ∧ s.Passes s' xs xs' := by
  unfold fetchSection at hstep
  split at hstep
  · obtain rfl := Option.some.inj hstep
    exact ⟨xs, h, rfl, passes_of_eq rfl rfl⟩
  · obtain rfl := Option.some.inj hstep
    exact ⟨xs, h, rfl, passes_of_eq rfl rfl⟩
  · obtain ⟨⟨msg, m⟩, hdeq, rfl⟩ := Option.map_eq_some_iff.1 hstep
    cases xs with
    | nil =>
      -- an empty mailbox has no head, so the dequeue is undefined
      have hhead : s.mbox.head = none := h.nodes
      simp [Mbox.dequeue, hhead] at hdeq
    | cons x xs =>
      obtain ⟨m', hdeq', hm', hcap⟩ := h.dequeue_cons
      obtain ⟨rfl, rfl⟩ := Prod.mk.inj (Option.some.inj (hdeq.symm.trans hdeq'))
      exact ⟨xs, hm', hcap, [], [x.2], by simp, by simp, by simp⟩

/-- **Every section keeps the representation invariant**, and every section but `sys_mbox_free`
passes messages through the queue. -/
theorem step_holds {l : MboxLabel τ μ} (h : s.mbox.Holds xs) (hstep : step plat l s = some s') :
    ∃ xs', s'.mbox.Holds xs' ∧ s'.mbox.capacity = s.mbox.capacity ∧
      (l ≠ .free → s.Passes s' xs xs') := by
  have weaken : (∃ xs', s'.mbox.Holds xs' ∧ s'.mbox.capacity = s.mbox.capacity ∧
      s.Passes s' xs xs') → ∃ xs', s'.mbox.Holds xs' ∧ s'.mbox.capacity = s.mbox.capacity ∧
      (l ≠ .free → s.Passes s' xs xs') :=
    fun ⟨xs', h₁, h₂, h₃⟩ ↦ ⟨xs', h₁, h₂, fun _ ↦ h₃⟩
  cases l with
  | post t msg n =>
    simp only [step] at hstep
    split at hstep
    · exact weaken (postSection_holds h hstep)
    · cases hstep
  | postWake t n =>
    simp only [step] at hstep
    split at hstep
    · exact weaken (postSection_holds h hstep)
    · cases hstep
  | trypost t msg n =>
    simp only [step] at hstep
    split at hstep
    · obtain ⟨r, hr, rfl⟩ := Option.map_eq_some_iff.1 hstep
      exact weaken (trypost_holds h hr rfl rfl rfl)
    · cases hstep
  | fetch t timeout =>
    simp only [step] at hstep
    split at hstep
    · exact weaken (fetchSection_holds h hstep)
    · cases hstep
  | fetchWake t timedOut =>
    simp only [step] at hstep
    split at hstep
    · split at hstep
      · cases hstep
      · exact weaken (fetchSection_holds h hstep)
    · cases hstep
  | free =>
    obtain ⟨m, hfree, rfl⟩ := Option.map_eq_some_iff.1 hstep
    obtain ⟨m', hfree', hm', hcap⟩ := h.sysMboxFree_eq
    obtain rfl := Option.some.inj (hfree.symm.trans hfree')
    exact ⟨[], hm', hcap, fun hne ↦ absurd rfl hne⟩

/-- **The invariant of whole executions**, and conservation of messages along those that free
nothing. -/
theorem run_holds {size : ℤ} {ls : List (MboxLabel τ μ)}
    (h : runLabels (step plat) ls (init size) = some s) :
    ∃ xs, s.mbox.Holds xs ∧ s.mbox.capacity = (Mbox.sysMboxNew size : Mbox μ).capacity ∧
      (.free ∉ ls → s.fetched ++ xs.map Prod.snd = s.accepted) := by
  refine runLabels_induction (I := fun ls s ↦ ∃ xs, s.mbox.Holds xs ∧
    s.mbox.capacity = (Mbox.sysMboxNew size : Mbox μ).capacity ∧
      (.free ∉ ls → s.fetched ++ xs.map Prod.snd = s.accepted)) ?_ ?_ h
  · exact ⟨[], Mbox.holds_sysMboxNew size, rfl, fun _ ↦ rfl⟩
  · rintro ls l s s' - ⟨xs, hxs, hcap, hhist⟩ hstep
    obtain ⟨xs', hxs', hcap', hpass⟩ := step_holds hxs hstep
    refine ⟨xs', hxs', hcap'.trans hcap, fun hfree ↦ ?_⟩
    rw [List.mem_append, List.mem_singleton, not_or] at hfree
    obtain ⟨ins, outs, hacc, hfet, hqueue⟩ := hpass (Ne.symm hfree.2)
    calc s'.fetched ++ xs'.map Prod.snd
        = s.fetched ++ (outs ++ xs'.map Prod.snd) := by rw [hfet, List.append_assoc]
      _ = (s.fetched ++ xs.map Prod.snd) ++ ins := by rw [← hqueue, List.append_assoc]
      _ = s'.accepted := by rw [hhist hfree.1, hacc]

/-! ### The mailbox is a FIFO -/

/-- **The mailbox is a FIFO at every moment of every interleaving** that does not free it, whatever
its capacity and however many threads post and fetch: the chain from `head` has exactly `count`
nodes and ends at `tail`, the count stays within the capacity, and the messages fetched so far
followed by those still queued are the messages accepted so far, in order. `sys_mbox_trypost` fails
exactly on a full mailbox, which it leaves as it is. -/
theorem mbox_fifo (plat : Platform) (size : ℤ) (ls : List (MboxLabel τ μ)) (s : MboxSystem τ μ)
    (h : runLabels (step plat) ls (init size) = some s) (hfree : .free ∉ ls) :
    (∃ nodes : List (ℕ × μ), s.mbox.heap.Links s.mbox.head nodes none ∧
        s.mbox.count = nodes.length ∧ s.mbox.tail = nodes.getLast?.map Prod.fst ∧
        s.fetched ++ nodes.map Prod.snd = s.accepted) ∧
      (s.mbox.tail = none ↔ s.mbox.head = none) ∧
      0 ≤ s.mbox.count ∧ s.mbox.count ≤ s.mbox.capacity ∧
      s.mbox.capacity = (if 0 < size then size else 32) ∧
      ∀ (n : ℕ) (msg : μ), n ∉ s.mbox.heap → ∃ err m',
        s.mbox.sysMboxTrypost n msg = some (err, m') ∧
          (err = .mem ↔ s.mbox.count = s.mbox.capacity) ∧ (err = .mem → m' = s.mbox) := by
  obtain ⟨xs, hxs, hcap, hhist⟩ := run_holds h
  refine ⟨⟨xs, hxs.nodes, hxs.count, hxs.tail, hhist hfree⟩, hxs.tail_eq_none_iff, ?_,
    hxs.le_capacity, hcap, fun n msg hn ↦ ?_⟩
  · rw [hxs.count]
    exact Int.natCast_nonneg _
  · obtain ⟨err, m', htry, hfull, hsame, -⟩ := hxs.sysMboxTrypost_eq hn msg
    exact ⟨err, m', htry, hfull, hsame⟩

/-- A mailbox of capacity one between three threads: a second post blocks, a `trypost` fails, a
fetch makes room and the blocked post reuses the freed node. -/
theorem mbox_fifo_capacity_one :
    ∃ s : MboxSystem ℕ ℕ,
      runLabels (step .windows)
        [.post 0 70 5, .trypost 1 71 6, .post 1 72 6, .fetch 2 0, .postWake 1 5] (init 1) = some s ∧
      s.fetched = [70] ∧ s.accepted = [70, 72] ∧
      ∃ nodes : List (ℕ × ℕ), s.mbox.heap.Links s.mbox.head nodes none ∧
        s.fetched ++ nodes.map Prod.snd = s.accepted := by
  refine ⟨_, rfl, rfl, rfl, ?_⟩
  obtain ⟨⟨nodes, hlinks, -, -, hhist⟩, -⟩ := mbox_fifo .windows 1
    [.post 0 70 5, .trypost 1 71 6, .post 1 72 6, .fetch 2 0, .postWake 1 5] _ rfl (by decide)
  exact ⟨nodes, hlinks, hhist⟩

/-! ### Fetching from a mailbox that may be freed -/

/-- A section of `sys_arch_mbox_fetch` that does not go (back) to waiting dequeues when a message
is there and returns `SYS_ARCH_TIMEOUT` otherwise. -/
def FetchSound (plat : Platform) (timeout : U32) (start : FetchStart) (m : Mbox μ) : Prop :=
  fetchNext plat timeout start m ≠ .wait →
    (m.head ≠ none ∧ 0 < m.count → fetchNext plat timeout start m = .dequeue) ∧
      (¬ (m.head ≠ none ∧ 0 < m.count) →
        (fetchNext plat timeout start m).ret = some sysArchTimeout)

/-- The branch without the check: a POSIX fetch without a timeout that finds the mailbox empty and
no longer valid. -/
def SkipsCheck (plat : Platform) (timeout : U32) (m : Mbox μ) : Prop :=
  plat = .posix ∧ timeout = 0 ∧ m.count = 0 ∧ m.valid = false

/-- On a mailbox that represents a queue, a fetch section is sound exactly off the unchecked
branch. -/
theorem fetchSound_iff {m : Mbox μ} {xs : List (ℕ × μ)} (h : m.Holds xs) (timeout : U32)
    (start : FetchStart) :
    FetchSound plat timeout start m ↔ ¬ SkipsCheck plat timeout m := by
  have hpos : 0 < m.count ↔ m.count ≠ 0 := by
    have := h.count
    omega
  unfold FetchSound SkipsCheck
  rw [h.head_ne_none_iff, and_self, hpos]
  by_cases hc : m.count = 0
  · cases plat with
    | windows =>
      have hne : fetchNext .windows timeout start m ≠ .dequeue := by
        simp only [fetchNext, hc, true_and, if_true]
        split <;> simp
      cases hn : fetchNext .windows timeout start m <;> simp_all [FetchNext.ret]
    | posix =>
      by_cases ht : timeout = 0
      · cases hv : m.valid <;> simp [fetchNext, ht, hc, hv, FetchNext.ret, sysArchTimeout]
      · have hne : fetchNext .posix timeout start m ≠ .dequeue := by
          simp only [fetchNext, ht, hc, true_and, if_true, if_false]
          split <;> simp
        cases hn : fetchNext .posix timeout start m <;> simp_all [FetchNext.ret]
  · cases plat <;> simp [fetchNext, hc]

/-- **When a fetch dequeues what is there.** In every state reached by posts, tryposts, fetches with
any timeout, wakeups of every kind and `sys_mbox_free`, on either platform, every section of
`sys_arch_mbox_fetch` is sound — it dequeues a message that is there or returns
`SYS_ARCH_TIMEOUT` — if and only if it is not the unchecked branch. -/
theorem fetch_section_sound_iff (plat : Platform) (size : ℤ) (ls : List (MboxLabel τ μ))
    (s : MboxSystem τ μ) (h : runLabels (step plat) ls (init size) = some s) (timeout : U32)
    (start : FetchStart) :
    FetchSound plat timeout start s.mbox ↔ ¬ SkipsCheck plat timeout s.mbox := by
  obtain ⟨xs, hxs, -⟩ := run_holds h
  exact fetchSound_iff hxs timeout start

/-- A timed POSIX fetch that wakes from a freed mailbox. -/
theorem fetch_section_sound_timed_posix :
    ∃ s : MboxSystem ℕ ℕ,
      runLabels (step .posix) [.fetch 1 10, .free] (init 8) = some s ∧
      FetchSound .posix 10 (.woken false) s.mbox := by
  refine ⟨_, rfl, ?_⟩
  refine (fetch_section_sound_iff .posix 8 [.fetch 1 10, .free] _ rfl 10 (.woken false)).2 ?_
  rintro ⟨-, ht, -⟩
  exact absurd ht (by decide)

/-- **The null dereference.** A POSIX thread blocks in a fetch without a timeout, the mailbox is
freed, the thread wakes: its section goes on to the dequeue with no head and `count = 0`. -/
theorem fetch_dequeues_freed_mailbox :
    ∃ s : MboxSystem ℕ ℕ,
      runLabels (step .posix) [.fetch 1 0, .free] (init 8) = some s ∧
      (∃ u, s.pc 1 = .fetching u ∧ u = 0) ∧
      fetchNext .posix 0 (.woken false) s.mbox = .dequeue ∧
      s.mbox.head = none ∧ s.mbox.count = 0 ∧
      ¬ FetchSound .posix 0 (.woken false) s.mbox := by
  refine ⟨_, rfl, ⟨0, rfl, rfl⟩, rfl, rfl, rfl, ?_⟩
  intro hsound
  exact absurd ((hsound (by decide)).2 (by decide)) (by decide)

end MboxSystem

end Lwip.Port
