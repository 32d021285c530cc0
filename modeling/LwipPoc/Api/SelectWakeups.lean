import LwipPoc.Api.Select
import LwipPoc.Foundation.DoublyLinked
import Mathlib.Data.Set.Card

/-!
# No wakeup is lost

What holds between the protected sections of `lwip_select` and `event_callback`, whatever their order. `Core` has the
list and the counts; `Awake` says who will wake a select:

> A select that is on the list and has looked at a socket in vain is signalled, or nothing it wants has happened
> there, or some `event_callback` for this socket is midway and has the select's node **before it**.

Nobody has to be counted on twice. An event finds `select_waiting` positive, since whoever has looked in vain is
registered, and so its `event_callback` starts at the head of the list, with everybody before it. A node is taken off
behind its back, or a new one is put in front: what was before it stays so, and if its own node is gone, the counter
has changed and it starts again.
-/

namespace Lwip.Sockets

open Function

namespace SelThread

/-- The thread is on the list. -/
def enlisted (th : SelThread) : Bool :=
  match th.pc with
  | .count _ | .scan .second _ | .blocked _ | .uncount .. | .delist .. => true
  | .idle _ | .scan .first _ | .scan .last _ | .enlist => false

/-- The thread is counted in `select_waiting` of a socket. -/
def registered (th : SelThread) (i : ℕ) : Bool :=
  decide (i < th.args.maxfdp1) && th.args.sets.has i &&
    match th.pc with
    | .count k => decide (i < k)
    | .scan .second _ | .blocked _ => true
    | .uncount k _ _ => decide (k ≤ i)
    | .idle _ | .scan .first _ | .scan .last _ | .enlist | .delist .. => false

/-- The thread has looked at a socket, after it was registered, and so far nothing was ready. -/
def watching (th : SelThread) (i : ℕ) : Prop :=
  match th.pc with
  | .scan .second r => i < r.i ∧ r.nready = 0
  | .blocked _ => True
  | .idle _ | .scan .first _ | .scan .last _ | .enlist | .count _ | .uncount .. | .delist .. => False

variable {th : SelThread} {i : ℕ}

theorem enlisted_of_registered (h : th.registered i = true) : th.enlisted = true := by
  rw [registered] at h
  rw [enlisted]
  rcases hpc : th.pc with _ | ⟨_ | _ | _, _⟩ | _ | _ | _ | _ | _ <;> simp_all

theorem waits_of_enlisted (h : th.enlisted = true) : th.pc.waits = true := by
  rw [enlisted] at h
  rcases hpc : th.pc with _ | ⟨_ | _ | _, _⟩ | _ | _ | _ | _ | _ <;> simp_all [SelPc.waits]

theorem enlisted_of_watching (h : th.watching i) : th.enlisted = true := by
  rw [watching] at h
  rw [enlisted]
  rcases hpc : th.pc with _ | ⟨_ | _ | _, _⟩ | _ | _ | _ | _ | _ <;> simp_all

/-- Who has looked at a socket in vain is registered on it. -/
theorem registered_of_watching (h : th.watching i) (hi : i < th.args.maxfdp1) (hhas : th.args.sets.has i = true) :
    th.registered i = true := by
  rw [watching] at h
  rw [registered, hhas]
  rcases hpc : th.pc with _ | ⟨_ | _ | _, _⟩ | _ | _ | _ | _ | _ <;> simp_all

end SelThread

theorem FdSets.has_of_wants {sets : FdSets} {i : ℕ} {sock : LwipSock} (h : sets.wants i sock = true) :
    sets.has i = true := by
  rw [wants] at h
  rw [has]
  simp only [Bool.or_eq_true, Bool.and_eq_true] at h ⊢
  exact h.imp (Or.imp And.right And.right) And.right

/-! ### The invariant -/

namespace SelectSys

variable {s s' : SelectSys} {l xs ys rest : List ℕ} {t e i : ℕ}

/-- The registered selects are the nodes of the list, and they are counted. -/
structure Core (s : SelectSys) (l : List ℕ) : Prop where
  links : DLinks (fun t ↦ (s.cb t).next) (fun t ↦ (s.cb t).prev) none s.selectCbList l
  nodup : l.Nodup
  mem : ∀ t, t ∈ l ↔ (s.sel t).enlisted
  threads : ∀ t, t < s.numThreads ∨ ∃ r, (s.sel t).pc = .idle r
  counts : ∀ i, (s.sockets i).selectWaiting.toInt = l.countP fun t ↦ (s.sel t).registered i
  opened : ∀ t i, (s.sel t).registered i → i < s.numSockets ∧ (s.sockets i).conn
  sets : ∀ t, (s.sel t).pc.waits → (s.cb t).sets = (s.sel t).args.sets
  /-- Nobody is in front of a node that is not on the list yet. -/
  fresh : ∀ t, (s.sel t).pc = .enlist → (s.cb t).prev = none
  /-- A semaphore was signalled once, or not at all. -/
  signals : ∀ t, (s.cb t).signals = (s.cb t).semSignalled.toNat
  /-- The node of a walker is on the list as long as the counter has not changed. -/
  walkers : ∀ e i scb last, s.ev e = .walking i scb last → last ≤ s.selectCbCtr ∧ (last = s.selectCbCtr → scb ∈ l)

/-- Some `event_callback` for the socket, other than `e`, has the select before it. -/
def WalkerFor (s : SelectSys) (l : List ℕ) (e : Option ℕ) (i t : ℕ) : Prop :=
  ∃ e' scb last, s.ev e' = .walking i scb last ∧ e ≠ some e' ∧ Behind l scb t

/-- The select should be signalled, for what has happened on a socket it has looked at in vain. -/
structure Due (s : SelectSys) (i t : ℕ) : Prop where
  watching : (s.sel t).watching i
  lt : i < (s.sel t).args.maxfdp1
  unsignalled : (s.cb t).semSignalled = false
  wants : (s.cb t).sets.wants i (s.sockets i) = true

/-- **Who is due will be woken.** -/
def Awake (s : SelectSys) (l : List ℕ) : Prop := ∀ t i, Due s i t → WalkerFor s l none i t

theorem Core.mem_of_due (h : Core s l) (hdue : Due s i t) : t ∈ l :=
  (h.mem t).2 (SelThread.enlisted_of_watching hdue.watching)

/-- The socket of a select that is due is counted for it. -/
theorem Core.registered_of_due (h : Core s l) (hdue : Due s i t) : (s.sel t).registered i = true := by
  have henlisted := SelThread.enlisted_of_watching hdue.watching
  refine SelThread.registered_of_watching hdue.watching hdue.lt ?_
  rw [← h.sets t (SelThread.waits_of_enlisted henlisted)]
  exact FdSets.has_of_wants hdue.wants

/-! ### `event_callback` -/

theorem visit_fields (cb : SelectCb) (i : ℕ) (sock : LwipSock) :
    (cb.visit i sock).next = cb.next ∧ (cb.visit i sock).prev = cb.prev ∧ (cb.visit i sock).sets = cb.sets ∧
      (cb.signals = cb.semSignalled.toNat → (cb.visit i sock).signals = (cb.visit i sock).semSignalled.toNat) ∧
      ((cb.visit i sock).semSignalled = false → cb.semSignalled = false ∧ cb.sets.wants i sock = false) := by
  rw [SelectCb.visit]
  split_ifs with h
  · refine ⟨rfl, rfl, rfl, fun hs ↦ ?_, fun hs ↦ by cases hs⟩
    rw [Bool.and_eq_true, Bool.not_eq_true'] at h
    simp [hs, h.1]
  · refine ⟨rfl, rfl, rfl, fun hs ↦ hs, fun hs ↦ ⟨hs, ?_⟩⟩
    rw [hs] at h
    simpa using h

/-- Control blocks change, but not their links, and not back to unsignalled. -/
theorem Core.withCb (h : Core s l) {c : ℕ → SelectCb} (hnext : ∀ t ∈ l, (c t).next = (s.cb t).next)
    (hprev : ∀ t, (s.sel t).pc.waits → (c t).prev = (s.cb t).prev) (hsets : ∀ t, (s.sel t).pc.waits → (c t).sets = (s.cb t).sets)
    (hsignals : ∀ t, (c t).signals = (c t).semSignalled.toNat) : Core { s with cb := c } l where
  links := h.links.congr hnext fun t ht ↦ hprev t (SelThread.waits_of_enlisted ((h.mem t).1 ht))
  nodup := h.nodup
  mem := h.mem
  threads := h.threads
  counts := h.counts
  opened := h.opened
  sets t ht := (hsets t ht).trans (h.sets t ht)
  fresh t ht := (hprev t (by rw [ht]; rfl)).trans (h.fresh t ht)
  signals := hsignals
  walkers := h.walkers

/-- A thread of `event_callback` goes on. -/
theorem Core.withEv (h : Core s l) {pc : EvPc}
    (hpc : ∀ i scb last, pc = .walking i scb last → last ≤ s.selectCbCtr ∧ (last = s.selectCbCtr → scb ∈ l)) :
    Core { s with ev := update s.ev e pc } l := by
  refine { h with walkers := fun e' i scb last hev ↦ ?_ }
  by_cases he : e' = e
  · subst he
    exact hpc i scb last (by simpa using hev)
  · exact h.walkers e' i scb last (by simpa [he] using hev)

theorem Core.visit (h : Core s l) (x i : ℕ) (sock : LwipSock) :
    Core { s with cb := update s.cb x ((s.cb x).visit i sock) } l := by
  obtain ⟨hnext, hprev, hsets, hsignals, -⟩ := visit_fields (s.cb x) i sock
  have hupdate : ∀ {α : Type} (f : SelectCb → α) (t : ℕ), f ((s.cb x).visit i sock) = f (s.cb x) →
      f (update s.cb x ((s.cb x).visit i sock) t) = f (s.cb t) := by
    intro α f t hf
    by_cases ht : t = x
    · subst ht
      rw [update_self, hf]
    · rw [update_of_ne ht]
  refine h.withCb (fun t _ ↦ hupdate SelectCb.next t hnext) (fun t _ ↦ hupdate SelectCb.prev t hprev)
    (fun t _ ↦ hupdate SelectCb.sets t hsets) fun t ↦ ?_
  by_cases ht : t = x
  · subst ht
    rw [update_self]
    exact hsignals (h.signals t)
  · rw [update_of_ne ht]
    exact h.signals t

theorem Core.walkFrom (h : Core s l) (e i : ℕ) (hl : l = xs ++ rest) {scb : Option ℕ} (hscb : scb = rest.head?) :
    Core (s.walkFrom e i scb) l := by
  subst hscb
  cases rest with
  | nil => exact h.withEv fun _ _ _ hpc ↦ nomatch hpc
  | cons x rest =>
    refine (h.visit x i (s.sockets i)).withEv fun j scb last hpc ↦ ?_
    cases hpc
    exact ⟨le_rfl, fun _ ↦ by rw [hl]; simp⟩

/-- **The walk goes on.** If everybody who is due has another walker, or is still before this one, that is so
after the next node. -/
theorem Awake.walkFrom (h : Core s l) (hl : l = xs ++ rest) {scb : Option ℕ} (hscb : scb = rest.head?)
    (hdue : ∀ t j, Due s j t → WalkerFor s l (some e) j t ∨ j = i ∧ t ∈ rest) : Awake (s.walkFrom e i scb) l := by
  subst hscb
  intro t j hj
  cases rest with
  | nil =>
    have hj' : Due s j t := ⟨hj.watching, hj.lt, hj.unsignalled, hj.wants⟩
    obtain ⟨e', scb, last, hev, hne, hbehind⟩ := (hdue t j hj').resolve_right fun h ↦ nomatch h.2
    exact ⟨e', scb, last, (update_of_ne (fun heq ↦ hne (congrArg some heq.symm)) ..).trans hev, by simp, hbehind⟩
  | cons x rest =>
    obtain ⟨-, -, hsets, -, hfalse⟩ := visit_fields (s.cb x) i (s.sockets i)
    have hj' : Due s j t ∧ (t = x → j ≠ i) := by
      obtain ⟨hwatching, hlt, hunsignalled, hwants⟩ := hj
      change (update s.cb x ((s.cb x).visit i (s.sockets i)) t).semSignalled = false at hunsignalled
      change (update s.cb x ((s.cb x).visit i (s.sockets i)) t).sets.wants j (s.sockets j) = true at hwants
      by_cases ht : t = x
      · subst ht
        rw [update_self] at hunsignalled hwants
        obtain ⟨hunsignalled, hnot⟩ := hfalse hunsignalled
        rw [hsets] at hwants
        refine ⟨⟨hwatching, hlt, hunsignalled, hwants⟩, fun _ ↦ ?_⟩
        rintro rfl
        cases hnot.symm.trans hwants
      · rw [update_of_ne ht] at hunsignalled hwants
        exact ⟨⟨hwatching, hlt, hunsignalled, hwants⟩, fun heq ↦ absurd heq ht⟩
    rcases hdue t j hj'.1 with ⟨e', scb, last, hev, hne, hbehind⟩ | ⟨rfl, hmem⟩
    · exact ⟨e', scb, last, (update_of_ne (fun heq ↦ hne (congrArg some heq.symm)) ..).trans hev, by simp, hbehind⟩
    · have hrest : t ∈ rest := (List.mem_cons.1 hmem).resolve_left fun heq ↦ hj'.2 heq rfl
      refine ⟨e, x, s.selectCbCtr, update_self .., by simp, ?_⟩
      have hnd := h.nodup
      rw [hl] at hnd ⊢
      exact Behind.of_append hnd hrest

/-- What a socket is for the counts stays. -/
theorem Core.withSocket (h : Core s l) {sock : LwipSock} (hwaiting : sock.selectWaiting = (s.sockets i).selectWaiting)
    (hconn : ∀ t, (s.sel t).registered i → sock.conn) : Core { s with sockets := update s.sockets i sock } l := by
  refine { h with counts := fun j ↦ ?_, opened := fun t j hreg ↦ ?_ }
  · by_cases hj : j = i
    · subst hj
      exact (congrArg BitVec.toInt ((congrArg _ (update_self ..)).trans hwaiting)).trans (h.counts j)
    · exact (congrArg _ (congrArg _ (update_of_ne hj ..))).trans (h.counts j)
  · refine ⟨(h.opened t j hreg).1, ?_⟩
    by_cases hj : j = i
    · subst hj
      exact (congrArg _ (update_self ..)).trans (hconn t hreg)
    · exact (congrArg _ (update_of_ne hj ..)).trans (h.opened t j hreg).2

/-- Only what happens on a socket makes a select due for it. -/
theorem Due.of_socket {sock : LwipSock} {j : ℕ} (h : Due { s with sockets := update s.sockets i sock } j t)
    (hj : j ≠ i) : Due s j t := by
  obtain ⟨hwatching, hlt, hunsignalled, hwants⟩ := h
  refine ⟨hwatching, hlt, hunsignalled, ?_⟩
  change (s.cb t).sets.wants j (update s.sockets i sock j) = true at hwants
  rwa [update_of_ne hj] at hwants

theorem set_fields (evt : NetconnEvt) (sock : LwipSock) :
    (evt.set sock).selectWaiting = sock.selectWaiting ∧ (evt.set sock).conn = sock.conn := by
  cases evt <;> exact ⟨rfl, rfl⟩

/-- A walker of its own is not needed by anybody who is due at another socket. -/
theorem WalkerFor.other (h : WalkerFor s l none i t) (he : ∀ scb last, s.ev e ≠ .walking i scb last) :
    WalkerFor s l (some e) i t := by
  obtain ⟨e', scb, last, hev, -, hbehind⟩ := h
  refine ⟨e', scb, last, hev, ?_, hbehind⟩
  rintro heq
  obtain rfl := Option.some.inj heq
  exact he scb last hev

/-- Every step of `event_callback` keeps the invariant. -/
theorem eventStep_awake (h : Core s l) (hawake : Awake s l) (hs : s.eventStep e = some s') : Core s' l ∧ Awake s' l := by
  rw [eventStep] at hs
  cases hev : s.ev e with
  | idle =>
    rw [hev] at hs
    cases hs
  | found i evt =>
    rw [hev] at hs
    obtain ⟨hwaiting, hconn⟩ := set_fields evt (s.sockets i)
    set u : SelectSys := { s with sockets := update s.sockets i (evt.set (s.sockets i)) } with hu
    have hcore : Core u l := h.withSocket hwaiting fun t hreg ↦ by
      rw [hconn]
      exact (h.opened t i hreg).2
    have hother : ∀ {t j}, Due u j t → j ≠ i → WalkerFor u l (some e) j t := by
      intro t j hdue hj
      refine (hawake t j (hdue.of_socket hj)).other fun scb last heq ↦ ?_
      cases hev.symm.trans heq
    dsimp only at hs
    split_ifs at hs with hzero <;> cases hs
    · refine ⟨hcore.withEv (fun _ _ _ hpc ↦ nomatch hpc), fun t j hdue ↦ ?_⟩
      have hdue' : Due u j t := ⟨hdue.watching, hdue.lt, hdue.unsignalled, hdue.wants⟩
      by_cases hj : j = i
      · -- whoever is due is counted
        subst hj
        have hcount := hcore.counts j
        rw [hzero] at hcount
        have hpos : 0 < l.countP fun t ↦ (u.sel t).registered j :=
          List.countP_pos_iff.2 ⟨t, hcore.mem_of_due hdue', hcore.registered_of_due hdue'⟩
        have hzero' : (0 : BitVec 32).toInt = 0 := rfl
        omega
      · obtain ⟨e', scb, last, hev', hne, hbehind⟩ := hother hdue' hj
        exact ⟨e', scb, last, (update_of_ne (fun heq ↦ hne (congrArg some heq.symm)) ..).trans hev', by simp, hbehind⟩
    · have hhead : s.selectCbList = l.head? := h.links.head_eq
      refine ⟨hcore.walkFrom e i (List.nil_append l).symm hhead,
        Awake.walkFrom hcore (List.nil_append l).symm hhead fun t j hdue ↦ ?_⟩
      by_cases hj : j = i
      · exact Or.inr ⟨hj, hcore.mem_of_due hdue⟩
      · exact Or.inl (hother hdue hj)
  | walking i scb last =>
    rw [hev] at hs
    have hsplit : ∀ {t j}, Due s j t → WalkerFor s l (some e) j t ∨ j = i ∧ Behind l scb t := by
      intro t j hdue
      obtain ⟨e', scb', last', hev', -, hbehind⟩ := hawake t j hdue
      by_cases he : e' = e
      · subst he
        cases hev.symm.trans hev'
        exact Or.inr ⟨rfl, hbehind⟩
      · exact Or.inl ⟨e', scb', last', hev', fun heq ↦ he (Option.some.inj heq).symm, hbehind⟩
    dsimp only at hs
    split_ifs at hs with hctr <;> cases hs
    · have hhead := h.links.head_eq
      refine ⟨h.walkFrom e i (List.nil_append l).symm hhead,
        Awake.walkFrom h (List.nil_append l).symm hhead fun t j hdue ↦ ?_⟩
      exact (hsplit hdue).imp_right fun hj ↦ ⟨hj.1, h.mem_of_due hdue⟩
    · obtain ⟨xs, ys, hl⟩ := List.append_of_mem ((h.walkers e i scb last hev).2 (not_not.1 hctr))
      have hlinks := h.links
      rw [hl] at hlinks
      have hl' : l = (xs ++ [scb]) ++ ys := by rw [hl]; simp
      refine ⟨h.walkFrom e i hl' hlinks.links_eq.1, Awake.walkFrom h hl' hlinks.links_eq.1 fun t j hdue ↦ ?_⟩
      exact (hsplit hdue).imp_right fun hj ↦ ⟨hj.1, hj.2 xs ys hl⟩

/-! ### `lwip_select` -/

/-- A thread goes on, as far as the list and the counts are concerned. -/
theorem Core.withThread (h : Core s l) {th : SelThread} (henlisted : th.enlisted = (s.sel t).enlisted)
    (hreg : ∀ i, th.registered i = (s.sel t).registered i) (hthread : t < s.numThreads ∨ ∃ r, th.pc = .idle r)
    (hsets : th.pc.waits → (s.cb t).sets = th.args.sets) (hfresh : th.pc = .enlist → (s.cb t).prev = none) :
    Core { s with sel := update s.sel t th } l := by
  have hregs : ∀ u i, (update s.sel t th u).registered i = (s.sel u).registered i := by
    intro u i
    by_cases hu : u = t
    · subst hu
      rw [update_self, hreg]
    · rw [update_of_ne hu]
  refine
    { h with
      mem := (forall_update_iff s.sel fun u th ↦ u ∈ l ↔ th.enlisted = true).2 ⟨?_, fun u _ ↦ h.mem u⟩
      threads := (forall_update_iff s.sel fun u th ↦ u < s.numThreads ∨ ∃ r, th.pc = .idle r).2
        ⟨hthread, fun u _ ↦ h.threads u⟩
      counts := fun i ↦ (h.counts i).trans (congrArg _ (List.countP_congr fun u _ ↦ by rw [hregs]))
      opened := fun u i hu ↦ h.opened u i ((hregs u i).symm.trans hu)
      sets := (forall_update_iff s.sel fun u th ↦ th.pc.waits = true → (s.cb u).sets = th.args.sets).2
        ⟨hsets, fun u _ ↦ h.sets u⟩
      fresh := (forall_update_iff s.sel fun u th ↦ th.pc = .enlist → (s.cb u).prev = none).2
        ⟨hfresh, fun u _ ↦ h.fresh u⟩ }
  rw [henlisted]
  exact h.mem t

/-- Nobody else becomes due. -/
theorem Awake.withThread (hawake : Awake s l) {th : SelThread}
    (hdue : ∀ i, Due { s with sel := update s.sel t th } i t → WalkerFor s l none i t) :
    Awake { s with sel := update s.sel t th } l := by
  intro u i hu
  by_cases hut : u = t
  · exact hut ▸ hdue i (hut ▸ hu)
  · obtain ⟨hwatching, hlt, hunsignalled, hwants⟩ := hu
    change (update s.sel t th u).watching i at hwatching
    change i < (update s.sel t th u).args.maxfdp1 at hlt
    rw [update_of_ne hut] at hwatching hlt
    exact hawake u i ⟨hwatching, hlt, hunsignalled, hwants⟩

/-- Control blocks change as they may. -/
theorem Awake.withCb (hawake : Awake s l) {c : ℕ → SelectCb}
    (hcb : ∀ t, (s.sel t).enlisted → (c t).sets = (s.cb t).sets ∧ (c t).semSignalled = (s.cb t).semSignalled) :
    Awake { s with cb := c } l := by
  intro t i hdue
  obtain ⟨hwatching, hlt, hunsignalled, hwants⟩ := hdue
  obtain ⟨hsets, hsignalled⟩ := hcb t (SelThread.enlisted_of_watching hwatching)
  refine hawake t i ⟨hwatching, hlt, hsignalled ▸ hunsignalled, ?_⟩
  rw [← hsets]
  exact hwants

/-- One turn of a scan that has found nothing so far has looked at one more socket in vain. -/
theorem wants_of_turn {sets : FdSets} {sock : LwipSock} {r : Selscan} (h : (r.turn sets (some sock)).nready = 0) :
    r.nready = 0 ∧ sets.wants r.i sock = false := by
  simp only [Selscan.turn, Nat.add_eq_zero_iff, Bool.toNat_eq_zero, Bool.and_eq_false_iff, Option.any_some,
    Bool.or_eq_false_iff] at h
  obtain ⟨⟨⟨hr, hreads⟩, hwrites⟩, hexcepts⟩ := h
  refine ⟨hr, ?_⟩
  simp only [FdSets.wants, Bool.or_eq_false_iff, Bool.and_eq_false_iff]
  exact ⟨⟨hreads.symm.imp And.right id, hwrites.symm⟩, hexcepts.symm⟩

/-- A scan goes on. -/
theorem turn_awake (h : Core s l) (hawake : Awake s l) {phase : SelPhase} {r : Selscan}
    (hpc : (s.sel t).pc = .scan phase r) :
    Core (s.goto t (.scan phase (r.turn (s.sel t).args.sets (s.trygetSocket r.i)))) l ∧
      Awake (s.goto t (.scan phase (r.turn (s.sel t).args.sets (s.trygetSocket r.i)))) l := by
  refine ⟨h.withThread ?_ (fun i ↦ ?_) ?_ (fun hwaits ↦ ?_) (fun hfresh ↦ nomatch hfresh),
    hawake.withThread fun i hdue ↦ ?_⟩
  · cases phase <;> simp [SelThread.enlisted, hpc]
  · cases phase <;> simp [SelThread.registered, hpc]
  · exact (h.threads t).imp_right fun ⟨r', hr'⟩ ↦ nomatch hpc.symm.trans hr'
  · refine h.sets t ?_
    rw [hpc]
    cases phase <;> exact hwaits
  · obtain ⟨hwatching, hlt', hunsignalled, hwants⟩ := hdue
    change (update s.sel t _ t).watching i at hwatching
    change i < (update s.sel t _ t).args.maxfdp1 at hlt'
    rw [update_self] at hwatching hlt'
    cases phase with
    | first => exact hwatching.elim
    | last => exact hwatching.elim
    | second =>
      obtain ⟨hi, hready⟩ := hwatching
      have hwaits : (s.sel t).pc.waits = true := by rw [hpc]; rfl
      have hhas : (s.sel t).args.sets.has i = true := by
        rw [← h.sets t hwaits]
        exact FdSets.has_of_wants hwants
      have hopen := h.opened t i (by simp [SelThread.registered, hpc, hhas, hlt'])
      have hr : r.nready = 0 := by
        have hle : r.nready ≤ (r.turn (s.sel t).args.sets (s.trygetSocket r.i)).nready := by
          simp only [Selscan.turn]
          omega
        omega
      rcases Nat.lt_succ_iff_lt_or_eq.1 hi with hi | rfl
      · exact hawake t i ⟨by rw [SelThread.watching, hpc]; exact ⟨hi, hr⟩, hlt', hunsignalled, hwants⟩
      · rw [trygetSocket, if_pos hopen] at hready
        rw [show (s.cb t).sets = (s.sel t).args.sets from h.sets t hwaits] at hwants
        cases (wants_of_turn hready).2.symm.trans hwants

/-- A thread that was not registered goes on in a state in which it is not. -/
theorem outside_awake (h : Core s l) (hawake : Awake s l) {pc : SelPc}
    (henlisted : (s.sel t).enlisted = false) (hpc : SelThread.enlisted ⟨(s.sel t).args, pc⟩ = false)
    (hthread : t < s.numThreads ∨ ∃ r, pc = .idle r) (hsets : pc.waits → (s.cb t).sets = (s.sel t).args.sets)
    (hfresh : pc = .enlist → (s.cb t).prev = none) : Core (s.goto t pc) l ∧ Awake (s.goto t pc) l := by
  have hreg : ∀ {th : SelThread}, th.enlisted = false → ∀ i, th.registered i = false := by
    intro th hth i
    by_contra hne
    rw [Bool.not_eq_false] at hne
    cases hth.symm.trans (SelThread.enlisted_of_registered hne)
  refine ⟨h.withThread (hpc.trans henlisted.symm) (fun i ↦ (hreg hpc i).trans (hreg henlisted i).symm) hthread hsets
    hfresh, hawake.withThread fun i hdue ↦ ?_⟩
  have hwatching : (update s.sel t ⟨(s.sel t).args, pc⟩ t).watching i := hdue.watching
  rw [update_self] at hwatching
  cases hpc.symm.trans (SelThread.enlisted_of_watching hwatching)

/-- A scan is over. -/
theorem scanned_awake (h : Core s l) (hawake : Awake s l) {phase : SelPhase} {r : Selscan} (sem : Bool)
    (hpc : (s.sel t).pc = .scan phase r) (hend : ¬r.i < (s.sel t).args.maxfdp1) :
    Core (s.scanned t sem r phase) l ∧ Awake (s.scanned t sem r phase) l := by
  have hthread : t < s.numThreads := (h.threads t).resolve_right fun ⟨r', hr'⟩ ↦ nomatch hpc.symm.trans hr'
  cases phase with
  | first =>
    have henlisted : (s.sel t).enlisted = false := by rw [SelThread.enlisted, hpc]
    have hidle : ∀ r', Core (s.goto t (.idle r')) l ∧ Awake (s.goto t (.idle r')) l := fun r' ↦
      outside_awake h hawake henlisted rfl (Or.inr ⟨r', rfl⟩) (fun hw ↦ nomatch hw) fun hf ↦ nomatch hf
    rw [scanned]
    split_ifs
    · exact hidle _
    · exact hidle _
    · set c : SelectCb := ⟨none, none, (s.sel t).args.sets, false, 0, 0⟩ with hc
      have hne : ∀ u, (s.sel u).pc.waits → u ≠ t := by
        rintro u hu rfl
        rw [hpc] at hu
        cases hu
      have hmem : ∀ u ∈ l, u ≠ t := fun u hu ↦ hne u (SelThread.waits_of_enlisted ((h.mem u).1 hu))
      have hsignals := (forall_update_iff s.cb (a := t) (b := c) fun _ c ↦ c.signals = c.semSignalled.toNat).2
        ⟨rfl, fun u _ ↦ h.signals u⟩
      have hcore := h.withCb (c := update s.cb t c) (fun u hu ↦ by rw [update_of_ne (hmem u hu)])
        (fun u hu ↦ by rw [update_of_ne (hne u hu)]) (fun u hu ↦ by rw [update_of_ne (hne u hu)]) hsignals
      refine outside_awake hcore (hawake.withCb fun u hu ↦ ?_) henlisted rfl (Or.inl hthread) (fun _ ↦ ?_) fun _ ↦ ?_
      · rw [update_of_ne (hne u (SelThread.waits_of_enlisted hu))]
        exact ⟨rfl, rfl⟩
      · show (update s.cb t c t).sets = _
        rw [update_self]
      · show (update s.cb t c t).prev = _
        rw [update_self]
    · exact hidle _
  | last =>
    have henlisted : (s.sel t).enlisted = false := by rw [SelThread.enlisted, hpc]
    exact outside_awake h hawake henlisted rfl (Or.inr ⟨_, rfl⟩) (fun hw ↦ nomatch hw) fun hf ↦ nomatch hf
  | second =>
    have hsets := h.sets t (by rw [hpc]; rfl)
    rw [scanned]
    split_ifs with hready
    · refine ⟨h.withThread ?_ (fun i ↦ ?_) (Or.inl hthread) (fun _ ↦ hsets) (fun hf ↦ nomatch hf),
        hawake.withThread fun i hdue ↦ hawake t i ?_⟩
      · rw [SelThread.enlisted, SelThread.enlisted, hpc]
      · rw [SelThread.registered, SelThread.registered, hpc]
      · have hlt : i < (update s.sel t ⟨(s.sel t).args, .blocked r⟩ t).args.maxfdp1 := hdue.lt
        rw [update_self] at hlt
        change i < (s.sel t).args.maxfdp1 at hlt
        refine ⟨?_, hlt, hdue.unsignalled, hdue.wants⟩
        rw [SelThread.watching, hpc]
        exact ⟨by omega, hready⟩
    · refine ⟨h.withThread ?_ (fun i ↦ ?_) (Or.inl hthread) (fun _ ↦ hsets) (fun hf ↦ nomatch hf),
        hawake.withThread fun i hdue ↦ ?_⟩
      · rw [SelThread.enlisted, SelThread.enlisted, hpc]
      · simp [SelThread.registered, hpc]
      · have hwatching : (update s.sel t ⟨(s.sel t).args, .uncount 0 false r⟩ t).watching i := hdue.watching
        rw [update_self] at hwatching
        exact hwatching.elim

/-! ### Counting -/

/-- One of the list changes sides. -/
theorem countP_flip {p q : ℕ → Bool} (hnd : l.Nodup) (ht : t ∈ l) (hp : p t = false) (hq : q t = true)
    (hother : ∀ u, u ≠ t → q u = p u) : l.countP q = l.countP p + 1 := by
  obtain ⟨xs, ys, rfl⟩ := List.append_of_mem ht
  rw [List.nodup_append, List.nodup_cons] at hnd
  obtain ⟨-, ⟨hys, -⟩, hxs⟩ := hnd
  have hcongr : ∀ zs : List ℕ, (∀ u ∈ zs, u ≠ t) → zs.countP q = zs.countP p := fun zs hzs ↦
    List.countP_congr fun u hu ↦ by rw [hother u (hzs u hu)]
  rw [List.countP_append, List.countP_append, List.countP_cons_of_pos hq, List.countP_cons_of_neg (by rw [hp]; decide),
    hcongr xs fun u hu ↦ hxs u hu t (by simp), hcongr ys fun u hu ↦ by rintro rfl; exact hys hu]
  omega

theorem toInt_add_one {n : BitVec 32} (h : 0 ≤ n.toInt) (hpos : 0 < (n + 1).toInt) : (n + 1).toInt = n.toInt + 1 := by
  have hn := BitVec.toInt_eq_toNat_cond n
  have hn' := BitVec.toInt_eq_toNat_cond (n + 1)
  have hadd : (n + 1).toNat = (n.toNat + 1) % 2 ^ 32 := BitVec.toNat_add ..
  have hlt := n.isLt
  split_ifs at hn hn' <;> omega

theorem toInt_sub_one {n : BitVec 32} (h : 1 ≤ n.toInt) : (n - 1).toInt = n.toInt - 1 := by
  have hn := BitVec.toInt_eq_toNat_cond n
  have hn' := BitVec.toInt_eq_toNat_cond (n - 1)
  have hsub : (n - 1).toNat = (2 ^ 32 - 1 + n.toNat) % 2 ^ 32 := BitVec.toNat_sub ..
  have hlt := n.isLt
  split_ifs at hn hn' <;> omega

/-- A thread on the list is counted for a socket, or is so no more. -/
theorem Core.recount (h : Core s l) {pc : SelPc} {n : BitVec 32}
    (henlisted : SelThread.enlisted ⟨(s.sel t).args, pc⟩ = true) (hmem : (s.sel t).enlisted = true)
    (hother : ∀ j, j ≠ i → SelThread.registered ⟨(s.sel t).args, pc⟩ j = (s.sel t).registered j)
    (hn : n.toInt = l.countP fun u ↦ (update s.sel t ⟨(s.sel t).args, pc⟩ u).registered i)
    (hopen : i < s.numSockets ∧ (s.sockets i).conn) :
    Core ({ s with sockets := update s.sockets i { s.sockets i with selectWaiting := n } }.goto t pc) l := by
  set th : SelThread := ⟨(s.sel t).args, pc⟩ with hth
  have hpc : pc.waits = true := SelThread.waits_of_enlisted henlisted
  have hregs : ∀ u j, j ≠ i → (update s.sel t th u).registered j = (s.sel u).registered j := by
    intro u j hj
    by_cases hu : u = t
    · subst hu
      rw [update_self, hother j hj]
    · rw [update_of_ne hu]
  refine
    { h with
      mem := (forall_update_iff s.sel fun u th ↦ u ∈ l ↔ th.enlisted = true).2 ⟨?_, fun u _ ↦ h.mem u⟩
      threads := (forall_update_iff s.sel fun u th ↦ u < s.numThreads ∨ ∃ r, th.pc = .idle r).2
        ⟨?_, fun u _ ↦ h.threads u⟩
      counts := (forall_update_iff s.sockets fun j sock ↦
        sock.selectWaiting.toInt = l.countP fun u ↦ (update s.sel t th u).registered j).2 ⟨hn, fun j hj ↦ ?_⟩
      opened := fun u j hu ↦ ?_
      sets := (forall_update_iff s.sel fun u th ↦ th.pc.waits = true → (s.cb u).sets = th.args.sets).2
        ⟨fun _ ↦ h.sets t (SelThread.waits_of_enlisted hmem), fun u _ ↦ h.sets u⟩
      fresh := (forall_update_iff s.sel fun u th ↦ th.pc = .enlist → (s.cb u).prev = none).2
        ⟨fun hf ↦ ?_, fun u _ ↦ h.fresh u⟩ }
  · exact iff_of_true ((h.mem t).2 hmem) henlisted
  · refine (h.threads t).imp_right fun ⟨r, hr⟩ ↦ ?_
    rw [SelThread.enlisted, hr] at hmem
    cases hmem
  · exact (h.counts j).trans (congrArg _ (List.countP_congr fun u _ ↦ by rw [hregs u j hj]))
  · change (update s.sel t th u).registered j = true at hu
    change j < s.numSockets ∧ (update s.sockets i { s.sockets i with selectWaiting := n } j).conn = true
    by_cases hj : j = i
    · subst hj
      rw [update_self]
      exact hopen
    · rw [update_of_ne hj]
      rw [hregs u j hj] at hu
      exact h.opened u j hu
  · change pc = .enlist at hf
    subst hf
    cases henlisted

/-- Nobody becomes due. -/
theorem Awake.mono (hawake : Awake s l) (hev : s'.ev = s.ev) (hdue : ∀ t i, Due s' i t → Due s i t) :
    Awake s' l := by
  intro t i h
  obtain ⟨e, scb, last, hwalking, hne, hbehind⟩ := hawake t i (hdue t i h)
  exact ⟨e, scb, last, by rw [hev, hwalking], hne, hbehind⟩

/-- A thread that has not looked at anything goes on so. -/
theorem Due.of_goto {pc : SelPc} {u j : ℕ} (hpc : ∀ i, ¬SelThread.watching ⟨(s.sel t).args, pc⟩ i)
    (h : Due (s.goto t pc) j u) : Due s j u := by
  obtain ⟨hwatching, hlt, hunsignalled, hwants⟩ := h
  change (update s.sel t ⟨(s.sel t).args, pc⟩ u).watching j at hwatching
  change j < (update s.sel t ⟨(s.sel t).args, pc⟩ u).args.maxfdp1 at hlt
  by_cases hu : u = t
  · subst hu
    rw [update_self] at hwatching
    exact (hpc j hwatching).elim
  · rw [update_of_ne hu] at hwatching hlt
    exact ⟨hwatching, hlt, hunsignalled, hwants⟩

/-- `select_waiting` is set, and a thread on the list goes on. -/
theorem setWaiting_awake (h : Core s l) (hawake : Awake s l) {pc : SelPc} {n : BitVec 32} {positive : Bool} {u : SelectSys}
    (hu : s.setWaiting i n positive = some u) (hpc : ∀ j, ¬SelThread.watching ⟨(s.sel t).args, pc⟩ j)
    (henlisted : SelThread.enlisted ⟨(s.sel t).args, pc⟩ = true) (hmem : (s.sel t).enlisted = true)
    (hother : ∀ j, j ≠ i → SelThread.registered ⟨(s.sel t).args, pc⟩ j = (s.sel t).registered j)
    (hn : (if positive then 0 < n.toInt else 0 ≤ n.toInt) →
      n.toInt = l.countP fun u ↦ (update s.sel t ⟨(s.sel t).args, pc⟩ u).registered i) :
    Core (u.goto t pc) l ∧ Awake (u.goto t pc) l := by
  rw [setWaiting] at hu
  by_cases hassert : (s.trygetSocket i).isSome ∧ (if positive then 0 < n.toInt else 0 ≤ n.toInt)
  swap
  · rw [if_neg hassert] at hu
    cases hu
  rw [if_pos hassert] at hu
  cases hu
  have hopen : i < s.numSockets ∧ (s.sockets i).conn = true := by
    have hsome := hassert.1
    rw [trygetSocket] at hsome
    by_contra hclosed
    rw [if_neg hclosed] at hsome
    cases hsome
  refine ⟨h.recount henlisted hmem hother (hn hassert.2) hopen, hawake.mono rfl fun v j hdue ↦ ?_⟩
  set w : SelectSys := { s with sockets := update s.sockets i { s.sockets i with selectWaiting := n } }
  obtain ⟨hwatching, hlt, hunsignalled, hwants⟩ := Due.of_goto (s := w) hpc hdue
  refine ⟨hwatching, hlt, hunsignalled, ?_⟩
  change (s.cb v).sets.wants j (update s.sockets i { s.sockets i with selectWaiting := n } j) = true at hwants
  by_cases hj : j = i
  · subst hj
    rwa [update_self] at hwants
  · rwa [update_of_ne hj] at hwants

/-! ### The list -/

/-- What putting a node on top of the list does to the nodes. -/
theorem enlist_cb (s : SelectSys) (t u : ℕ) :
    ((s.enlist t).cb u).next = (if u = t then s.selectCbList else (s.cb u).next) ∧
      ((s.enlist t).cb u).prev = (if s.selectCbList = some u then some t else (s.cb u).prev) ∧
      ((s.enlist t).cb u).sets = (s.cb u).sets ∧ ((s.enlist t).cb u).semSignalled = (s.cb u).semSignalled ∧
      ((s.enlist t).cb u).signals = (s.cb u).signals := by
  rw [enlist]
  rcases s.selectCbList with _ | h
  · by_cases ht : u = t
    · subst ht
      simp
    · simp [ht]
  · by_cases hu : u = h
    · subst hu
      by_cases ht : u = t
      · subst ht
        simp
      · simp [ht]
    · by_cases ht : u = t
      · subst ht
        simp [hu, Ne.symm hu]
      · simp [hu, ht, Ne.symm hu]

theorem enlist_awake (h : Core s l) (hawake : Awake s l) (hpc : (s.sel t).pc = .enlist) :
    Core ((s.enlist t).goto t (.count 0)) (t :: l) ∧ Awake ((s.enlist t).goto t (.count 0)) (t :: l) := by
  have hcb := enlist_cb s t
  have hmem : ∀ u ∈ l, u ≠ t := by
    rintro u hu rfl
    have henlisted := (h.mem u).1 hu
    rw [SelThread.enlisted, hpc] at henlisted
    cases henlisted
  have htmem : t ∉ l := fun ht ↦ hmem t ht rfl
  have hhead : ∀ {u}, s.selectCbList = some u → u ∈ l := by
    intro u hu
    rw [h.links.head_eq] at hu
    exact List.mem_of_mem_head? hu
  have hprev : ∀ u, u ∉ l → ((s.enlist t).cb u).prev = (s.cb u).prev := by
    intro u hu
    rw [(hcb u).2.1, if_neg fun heq ↦ hu (hhead heq)]
  have hregs : ∀ u i, (update s.sel t ⟨(s.sel t).args, .count 0⟩ u).registered i = (s.sel u).registered i := by
    intro u i
    by_cases hu : u = t
    · subst hu
      rw [update_self]
      simp [SelThread.registered, hpc]
    · rw [update_of_ne hu]
  have hnot : ∀ i, (s.sel t).registered i = false := by simp [SelThread.registered, hpc]
  refine ⟨⟨?_, List.nodup_cons.2 ⟨htmem, h.nodup⟩, ?_, ?_, fun i ↦ ?_, fun u i hu ↦ ?_, ?_, ?_, fun u ↦ ?_,
    fun e i scb last hev ↦ ?_⟩, fun u i hdue ↦ ?_⟩
  · refine h.links.push h.nodup ?_ ?_ (fun u hu ↦ ?_) (fun u hu ↦ ?_) fun u hu hne ↦ ?_
    · exact (hcb t).1.trans (if_pos rfl)
    · exact (hprev t htmem).trans (h.fresh t hpc)
    · exact (hcb u).1.trans (if_neg (hmem u hu))
    · exact (hcb u).2.1.trans (if_pos hu)
    · exact (hcb u).2.1.trans (if_neg hne)
  · refine (forall_update_iff s.sel fun u th ↦ u ∈ t :: l ↔ th.enlisted = true).2 ⟨by simp [SelThread.enlisted], ?_⟩
    intro u hu
    rw [List.mem_cons, h.mem u, or_iff_right hu]
  · refine (forall_update_iff s.sel fun u th ↦ u < s.numThreads ∨ ∃ r, th.pc = .idle r).2 ⟨?_, fun u _ ↦ h.threads u⟩
    exact (h.threads t).imp_right fun ⟨r, hr⟩ ↦ nomatch hpc.symm.trans hr
  · rw [List.countP_cons_of_neg]
    · exact (h.counts i).trans (congrArg _ (List.countP_congr fun u _ ↦ by
        rw [show ((s.enlist t).goto t (.count 0)).sel u = update s.sel t ⟨(s.sel t).args, .count 0⟩ u from rfl, hregs]))
    · rw [show ((s.enlist t).goto t (.count 0)).sel t = update s.sel t ⟨(s.sel t).args, .count 0⟩ t from rfl, hregs,
        hnot]
      decide
  · exact h.opened u i ((hregs u i).symm.trans hu)
  · refine (forall_update_iff s.sel fun u th ↦ th.pc.waits = true → ((s.enlist t).cb u).sets = th.args.sets).2
      ⟨fun _ ↦ ?_, fun u _ hu ↦ ?_⟩
    · exact (hcb t).2.2.1.trans (h.sets t (by rw [hpc]; rfl))
    · exact (hcb u).2.2.1.trans (h.sets u hu)
  · refine (forall_update_iff s.sel fun u th ↦ th.pc = .enlist → ((s.enlist t).cb u).prev = none).2
      ⟨(fun hf ↦ nomatch hf), fun u _ hu ↦ ?_⟩
    refine (hprev u fun hmem ↦ ?_).trans (h.fresh u hu)
    have henlisted := (h.mem u).1 hmem
    rw [SelThread.enlisted, hu] at henlisted
    cases henlisted
  · exact (hcb u).2.2.2.2.trans ((h.signals u).trans (congrArg _ (hcb u).2.2.2.1.symm))
  · have hle := (h.walkers e i scb last hev).1
    have hctr : ((s.enlist t).goto t (.count 0)).selectCbCtr = s.selectCbCtr + 1 := rfl
    exact ⟨by omega, fun heq ↦ by omega⟩
  · obtain ⟨hwatching, hlt, hunsignalled, hwants⟩ := Due.of_goto (s := s.enlist t) (fun _ ↦ id) hdue
    rw [(hcb u).2.2.2.1] at hunsignalled
    rw [(hcb u).2.2.1] at hwants
    have hdue' : Due s i u := ⟨hwatching, hlt, hunsignalled, hwants⟩
    obtain ⟨e, scb, last, hev, hne, hbehind⟩ := hawake u i hdue'
    exact ⟨e, scb, last, hev, hne, hbehind.push (h.mem_of_due hdue')⟩

/-- What taking a node off the list does to the nodes. -/
theorem delist_cb (hlinks : DLinks (fun t ↦ (s.cb t).next) (fun t ↦ (s.cb t).prev) none s.selectCbList (xs ++ t :: ys))
    (hnd : (xs ++ t :: ys).Nodup) :
    ∃ u : SelectSys, s.delist t = some u ∧
      u.selectCbList = (if xs = [] then (s.cb t).next else s.selectCbList) ∧
      (∀ v, (u.cb v).next = (if (s.cb t).prev = some v then (s.cb t).next else (s.cb v).next)) ∧
      (∀ v, (u.cb v).prev = (if (s.cb t).next = some v then (s.cb t).prev else (s.cb v).prev)) ∧
      (∀ v, (u.cb v).sets = (s.cb v).sets ∧ (u.cb v).semSignalled = (s.cb v).semSignalled ∧
        (u.cb v).signals = (s.cb v).signals) ∧
      u = { s with cb := u.cb, selectCbList := u.selectCbList, selectCbCtr := s.selectCbCtr + 1 } := by
  have hprev : (s.cb t).prev = none ↔ xs = [] := hlinks.prev_eq_none_iff
  have hhead : s.selectCbList = some t ↔ xs = [] := by
    rw [hlinks.head_eq]
    cases xs with
    | nil => simp
    | cons x xs =>
      have hne : x ≠ t := by
        rintro rfl
        exact (List.nodup_cons.1 hnd).1 (by simp)
      simp [hne]
  rw [delist]
  by_cases hxs : xs = []
  · simp only [hhead.2 hxs, hprev.2 hxs, if_true, hxs]
    refine ⟨_, rfl, rfl, fun v ↦ ?_, fun v ↦ ?_, fun v ↦ ?_, rfl⟩
    all_goals
      rcases (s.cb t).next with _ | b
      · simp
      · by_cases hv : v = b
        · subst hv
          simp
        · simp [hv, Ne.symm hv]
  · have hne : s.selectCbList ≠ some t := fun heq ↦ hxs (hhead.1 heq)
    obtain ⟨a, ha⟩ := Option.ne_none_iff_exists'.1 fun heq ↦ hxs (hprev.1 heq)
    simp only [if_neg hne, ha, if_neg hxs]
    refine ⟨_, rfl, rfl, fun v ↦ ?_, fun v ↦ ?_, fun v ↦ ?_, rfl⟩
    all_goals
      rcases (s.cb t).next with _ | b
      · by_cases hva : v = a
        · subst hva
          simp
        · simp [hva, Ne.symm hva]
      · by_cases hva : v = a
        · subst hva
          by_cases hv : v = b
          · subst hv
            simp
          · simp [hv, Ne.symm hv]
        · by_cases hv : v = b
          · subst hv
            simp [hva, Ne.symm hva]
          · simp [hva, hv, Ne.symm hv, Ne.symm hva]

theorem delist_awake (h : Core s l) (hawake : Awake s l) {timedOut : Bool} {r : Selscan}
    (hpc : (s.sel t).pc = .delist timedOut r) {pc : SelPc} (hout : pc = .idle (some r) ∨ pc = .scan .last .init) {u : SelectSys}
    (hu : s.delist t = some u) : ∃ l', Core (u.goto t pc) l' ∧ Awake (u.goto t pc) l' := by
  have htmem : t ∈ l := (h.mem t).2 (by rw [SelThread.enlisted, hpc])
  obtain ⟨xs, ys, rfl⟩ := List.append_of_mem htmem
  obtain ⟨u', hu', hlist, hnext, hprev, hcb, heq⟩ := delist_cb h.links h.nodup
  obtain rfl := Option.some.inj (hu.symm.trans hu')
  have hnot : SelThread.enlisted ⟨(s.sel t).args, pc⟩ = false := by
    rcases hout with rfl | rfl <;> rfl
  have hnd := h.nodup
  rw [List.nodup_append, List.nodup_cons] at hnd
  have hmem : ∀ {v}, v ∈ xs ++ ys ↔ v ∈ xs ++ t :: ys ∧ v ≠ t := by
    intro v
    simp only [List.mem_append, List.mem_cons]
    constructor
    · rintro (hv | hv)
      · exact ⟨Or.inl hv, hnd.2.2 v hv t (by simp)⟩
      · exact ⟨Or.inr (Or.inr hv), by rintro rfl; exact hnd.2.1.1 hv⟩
    · rintro ⟨hv | hv | hv, hne⟩
      · exact Or.inl hv
      · exact absurd hv hne
      · exact Or.inr hv
  have hregs : ∀ v i, (update s.sel t ⟨(s.sel t).args, pc⟩ v).registered i = (s.sel v).registered i := by
    intro v i
    by_cases hv : v = t
    · subst hv
      rw [update_self]
      rcases hout with rfl | rfl <;> simp [SelThread.registered, hpc]
    · rw [update_of_ne hv]
  have hsel : (u.goto t pc).sel = update s.sel t ⟨(s.sel t).args, pc⟩ := by
    rw [heq]
    rfl
  have hsockets : (u.goto t pc).sockets = s.sockets ∧ (u.goto t pc).numSockets = s.numSockets ∧
      (u.goto t pc).numThreads = s.numThreads ∧ (u.goto t pc).ev = s.ev ∧
      (u.goto t pc).selectCbCtr = s.selectCbCtr + 1 := by
    rw [heq]
    exact ⟨rfl, rfl, rfl, rfl, rfl⟩
  obtain ⟨hsockets, hnum, hthreads, hev, hctr⟩ := hsockets
  refine ⟨xs ++ ys, ⟨?_, ?_, ?_, ?_, fun i ↦ ?_, fun v i hv ↦ ?_, ?_, ?_, fun v ↦ ?_, fun e i scb last hwalking ↦ ?_⟩,
    fun v i hdue ↦ ?_⟩
  · have hlinks := h.links.unlink h.nodup (fun v _ ↦ hnext v) fun v _ ↦ hprev v
    rw [← hlist] at hlinks
    exact hlinks
  · exact h.nodup.sublist (List.Sublist.append_left (List.sublist_cons_self ..) _)
  · rw [hsel]
    refine (forall_update_iff s.sel fun v th ↦ v ∈ xs ++ ys ↔ th.enlisted = true).2 ⟨?_, fun v hv ↦ ?_⟩
    · rw [hmem, hnot]
      simp
    · rw [hmem, h.mem, and_iff_left hv]
  · rw [hsel, hthreads]
    refine (forall_update_iff s.sel fun v th ↦ v < s.numThreads ∨ ∃ r, th.pc = .idle r).2 ⟨?_, fun v _ ↦ h.threads v⟩
    exact (h.threads t).imp_right fun ⟨r', hr'⟩ ↦ nomatch hpc.symm.trans hr'
  · rw [hsockets, hsel, h.counts i, List.countP_append, List.countP_append, List.countP_cons_of_neg]
    · simp only [hregs]
    · simp [SelThread.registered, hpc]
  · rw [hsel, hregs] at hv
    rw [hsockets, hnum]
    exact h.opened v i hv
  · rw [hsel]
    refine (forall_update_iff s.sel fun v th ↦ th.pc.waits = true → (u.cb v).sets = th.args.sets).2
      ⟨fun hw ↦ ?_, fun v _ hv ↦ (hcb v).1.trans (h.sets v hv)⟩
    rcases hout with rfl | rfl <;> cases hw
  · rw [hsel]
    refine (forall_update_iff s.sel fun v th ↦ th.pc = .enlist → (u.cb v).prev = none).2 ⟨fun hf ↦ ?_, fun v _ hv ↦ ?_⟩
    · rcases hout with rfl | rfl <;> cases hf
    · have hlinks := h.links.links_eq
      rw [hprev, if_neg, h.fresh v hv]
      intro hnextv
      have hvmem : v ∈ xs ++ t :: ys :=
        List.mem_append_right _ (List.mem_cons_of_mem _ (List.mem_of_mem_head? (hlinks.1.symm.trans hnextv)))
      have henlisted := (h.mem v).1 hvmem
      rw [SelThread.enlisted, hv] at henlisted
      cases henlisted
  · exact (hcb v).2.2.trans ((h.signals v).trans (congrArg _ (hcb v).2.1.symm))
  · rw [hev] at hwalking
    have hle := (h.walkers e i scb last hwalking).1
    rw [hctr]
    exact ⟨by omega, fun heq ↦ by omega⟩
  · obtain ⟨hwatching, hlt, hunsignalled, hwants⟩ := hdue
    rw [hsel] at hwatching hlt
    have hv : v ≠ t := by
      rintro rfl
      rw [update_self] at hwatching
      cases hnot.symm.trans (SelThread.enlisted_of_watching hwatching)
    rw [update_of_ne hv] at hwatching hlt
    change (u.cb v).semSignalled = false at hunsignalled
    change (u.cb v).sets.wants i ((u.goto t pc).sockets i) = true at hwants
    rw [(hcb v).2.1] at hunsignalled
    rw [(hcb v).1, hsockets] at hwants
    obtain ⟨e, scb, last, hwalking, hne, hbehind⟩ := hawake v i ⟨hwatching, hlt, hunsignalled, hwants⟩
    exact ⟨e, scb, last, by rw [hev, hwalking], hne, hbehind.unlink (Ne.symm hv)⟩

/-- Every step of `lwip_select` keeps the invariant. -/
theorem selectStep_awake (h : Core s l) (hawake : Awake s l) {env : Bool} (hs : s.selectStep t env = some s') :
    ∃ l', Core s' l' ∧ Awake s' l' := by
  rw [selectStep] at hs
  have hthread : ∀ {pc : SelPc}, (s.sel t).pc = pc → (∀ r, pc ≠ .idle r) → t < s.numThreads := fun hpc hne ↦
    (h.threads t).resolve_right fun ⟨r, hr⟩ ↦ hne r (hpc.symm.trans hr)
  cases hpc : (s.sel t).pc with
  | idle r =>
    rw [hpc] at hs
    cases hs
  | scan phase r =>
    simp only [hpc] at hs
    split_ifs at hs with hlt <;> cases hs
    · exact ⟨l, turn_awake h hawake hpc⟩
    · exact ⟨l, scanned_awake h hawake env hpc hlt⟩
  | enlist =>
    simp only [hpc] at hs
    cases hs
    exact ⟨t :: l, enlist_awake h hawake hpc⟩
  | delist timedOut r =>
    simp only [hpc] at hs
    obtain ⟨u, hu, rfl⟩ := Option.map_eq_some_iff.1 hs
    refine delist_awake h hawake hpc ?_ hu
    cases timedOut
    · exact Or.inr rfl
    · exact Or.inl rfl
  | blocked r =>
    have henlisted : (s.sel t).enlisted = true := by rw [SelThread.enlisted, hpc]
    have hsets := h.sets t (by rw [hpc]; rfl)
    have hlt : t < s.numThreads := hthread hpc fun _ hne ↦ nomatch hne
    -- a thread that is woken does not look at anything any more
    have hgo : ∀ {w : SelectSys} {timedOut}, Core w l → Awake w l → w.sel = s.sel → w.numThreads = s.numThreads →
        (w.cb t).sets = (s.cb t).sets → Core (w.goto t (.uncount 0 timedOut r)) l ∧ Awake (w.goto t (.uncount 0 timedOut r)) l := by
      intro w timedOut hcore hw hsel hnum hcb
      have hpc' : (w.sel t).pc = .blocked r := by rw [hsel, hpc]
      refine ⟨hcore.withThread ?_ (fun i ↦ ?_) (Or.inl (by rw [hnum]; exact hlt)) (fun _ ↦ ?_) (fun hf ↦ nomatch hf),
        hw.mono rfl fun v i hdue ↦ Due.of_goto (fun _ ↦ id) hdue⟩
      · simp [SelThread.enlisted, hpc']
      · simp [SelThread.registered, hpc']
      · show (w.cb t).sets = (w.sel t).args.sets
        rw [hcb, hsel, hsets]
    simp only [hpc] at hs
    split_ifs at hs with henv hsem htimeout <;> cases hs
    · set c : SelectCb := { s.cb t with sem := (s.cb t).sem - 1 } with hc
      have hagree : ∀ {α : Type} (f : SelectCb → α) (v : ℕ), f c = f (s.cb t) → f (update s.cb t c v) = f (s.cb v) := by
        intro α f v hf
        by_cases hv : v = t
        · subst hv
          rw [update_self, hf]
        · rw [update_of_ne hv]
      have hcore := h.withCb (c := update s.cb t c) (fun v _ ↦ hagree SelectCb.next v rfl)
        (fun v _ ↦ hagree SelectCb.prev v rfl) (fun v _ ↦ hagree SelectCb.sets v rfl) fun v ↦ by
          rw [hagree SelectCb.signals v rfl, hagree SelectCb.semSignalled v rfl, h.signals]
      have hw := hawake.withCb (c := update s.cb t c) fun v _ ↦
        ⟨hagree SelectCb.sets v rfl, hagree SelectCb.semSignalled v rfl⟩
      exact ⟨l, hgo hcore hw rfl rfl (hagree SelectCb.sets t rfl)⟩
    · exact ⟨l, hgo h hawake rfl rfl rfl⟩
  | count i =>
    have henlisted : (s.sel t).enlisted = true := by rw [SelThread.enlisted, hpc]
    have hmem := (h.mem t).2 henlisted
    have hsets := h.sets t (by rw [hpc]; rfl)
    have hlt : t < s.numThreads := hthread hpc fun _ hne ↦ nomatch hne
    simp only [hpc] at hs
    split_ifs at hs with hi hhas
    · obtain ⟨u, hu, rfl⟩ := Option.map_eq_some_iff.1 hs
      refine ⟨l, setWaiting_awake h hawake hu (fun _ ↦ id) rfl henlisted (fun j hj ↦ ?_) fun hpos ↦ ?_⟩
      · have : j < i + 1 ↔ j < i := by omega
        simp [SelThread.registered, hpc, this]
      · have hcount := h.counts i
        have hflip := countP_flip (p := fun u ↦ (s.sel u).registered i)
          (q := fun u ↦ (update s.sel t ⟨(s.sel t).args, .count (i + 1)⟩ u).registered i) h.nodup hmem
          (by simp [SelThread.registered, hpc]) (by simp [SelThread.registered, hi, hhas])
          fun u hu ↦ by rw [update_of_ne hu]
        rw [hflip, toInt_add_one (by omega) hpos, hcount]
        push_cast
        rfl
    · cases hs
      refine ⟨l, h.withThread ?_ (fun j ↦ ?_) (Or.inl hlt) (fun _ ↦ hsets) (fun hf ↦ nomatch hf),
        hawake.mono rfl fun v j hdue ↦ Due.of_goto (fun _ ↦ id) hdue⟩
      · simp [SelThread.enlisted, hpc]
      · by_cases hj : j = i
        · subst hj
          simp [SelThread.registered, hhas]
        · have : j < i + 1 ↔ j < i := by omega
          simp [SelThread.registered, hpc, this]
    · cases hs
      refine ⟨l, h.withThread ?_ (fun j ↦ ?_) (Or.inl hlt) (fun _ ↦ hsets) (fun hf ↦ nomatch hf),
        hawake.mono rfl fun v j hdue ↦ Due.of_goto (fun j hj ↦ ?_) hdue⟩
      · simp [SelThread.enlisted, hpc]
      · have : j < (s.sel t).args.maxfdp1 → j < i := by omega
        simpa [SelThread.registered, hpc] using fun hj _ ↦ this hj
      · exact absurd hj.1 (Nat.not_lt_zero j)
  | uncount i timedOut r =>
    have henlisted : (s.sel t).enlisted = true := by rw [SelThread.enlisted, hpc]
    have hmem := (h.mem t).2 henlisted
    have hsets := h.sets t (by rw [hpc]; rfl)
    have hlt : t < s.numThreads := hthread hpc fun _ hne ↦ nomatch hne
    simp only [hpc] at hs
    split_ifs at hs with hi hhas
    · obtain ⟨u, hu, rfl⟩ := Option.map_eq_some_iff.1 hs
      refine ⟨l, setWaiting_awake h hawake hu (fun _ ↦ id) rfl henlisted (fun j hj ↦ ?_) fun _ ↦ ?_⟩
      · have : i + 1 ≤ j ↔ i ≤ j := by omega
        simp [SelThread.registered, hpc, this]
      · have hcount := h.counts i
        have hflip := countP_flip (p := fun u ↦ (update s.sel t ⟨(s.sel t).args, .uncount (i + 1) timedOut r⟩ u).registered i)
          (q := fun u ↦ (s.sel u).registered i) h.nodup hmem (by simp [SelThread.registered])
          (by simp [SelThread.registered, hpc, hi, hhas]) fun u hu ↦ by rw [update_of_ne hu]
        rw [hflip] at hcount
        rw [toInt_sub_one (by omega), hcount]
        push_cast
        omega
    · cases hs
      refine ⟨l, h.withThread ?_ (fun j ↦ ?_) (Or.inl hlt) (fun _ ↦ hsets) (fun hf ↦ nomatch hf),
        hawake.mono rfl fun v j hdue ↦ Due.of_goto (fun _ ↦ id) hdue⟩
      · simp [SelThread.enlisted, hpc]
      · by_cases hj : j = i
        · subst hj
          simp [SelThread.registered, hhas]
        · have : i + 1 ≤ j ↔ i ≤ j := by omega
          simp [SelThread.registered, hpc, this]
    · cases hs
      refine ⟨l, h.withThread ?_ (fun j ↦ ?_) (Or.inl hlt) (fun _ ↦ hsets) (fun hf ↦ nomatch hf),
        hawake.mono rfl fun v j hdue ↦ Due.of_goto (fun _ ↦ id) hdue⟩
      · simp [SelThread.enlisted, hpc]
      · have : j < (s.sel t).args.maxfdp1 → j < i := by omega
        simpa [SelThread.registered, hpc] using fun hj _ ↦ this hj

end SelectSys

/-! ### Runs -/

open SelectSys

variable {s s' : SelectSys} {l : List ℕ}

theorem core_init (numSockets numThreads : ℕ) : Core (.init numSockets numThreads) [] where
  links := rfl
  nodup := List.nodup_nil
  mem t := by simp [SelectSys.init, SelThread.enlisted]
  threads t := Or.inr ⟨none, rfl⟩
  counts i := rfl
  opened t i hreg := by simp [SelectSys.init, SelThread.registered] at hreg
  sets t hw := nomatch hw
  fresh t hf := nomatch hf
  signals t := rfl
  walkers e i scb last hev := nomatch hev

theorem awake_init (numSockets numThreads : ℕ) : Awake (.init numSockets numThreads) [] :=
  fun _ _ hdue ↦ hdue.watching.elim

/-- Every step keeps the invariant. -/
theorem selectSysStep_awake {label : SelectLabel} (h : Core s l) (hawake : Awake s l)
    (hs : selectSysStep label s = some s') : ∃ l', Core s' l' ∧ Awake s' l' := by
  cases label with
  | select t args =>
    rw [selectSysStep] at hs
    cases hpc : (s.sel t).pc with
    | idle r =>
      simp only [hpc] at hs
      split_ifs at hs with hlt
      cases hs
      refine ⟨l, h.withThread ?_ (fun i ↦ ?_) (Or.inl hlt) (fun hw ↦ nomatch hw) (fun hf ↦ nomatch hf),
        hawake.withThread fun i hdue ↦ ?_⟩
      · simp [SelThread.enlisted, hpc]
      · simp [SelThread.registered, hpc]
      · have hwatching : (update s.sel t ⟨args, .scan .first .init⟩ t).watching i := hdue.watching
        rw [update_self] at hwatching
        exact hwatching.elim
    | _ =>
      simp only [hpc] at hs
      cases hs
  | selectStep t env => exact selectStep_awake h hawake hs
  | event e i evt =>
    rw [selectSysStep] at hs
    split_ifs at hs with hidle hopen <;> cases hs
    · refine ⟨l, h.withEv (fun _ _ _ hpc ↦ nomatch hpc), fun t j hdue ↦ ?_⟩
      have hdue' : Due s j t := ⟨hdue.watching, hdue.lt, hdue.unsignalled, hdue.wants⟩
      obtain ⟨e', scb, last, hev, -, hbehind⟩ := hawake t j hdue'
      refine ⟨e', scb, last, (update_of_ne ?_ ..).trans hev, by simp, hbehind⟩
      rintro rfl
      cases hidle.symm.trans hev
    · exact ⟨l, h, hawake⟩
  | eventStep e => exact ⟨l, eventStep_awake h hawake hs⟩
  | allocSocket i sendevent =>
    rw [selectSysStep] at hs
    by_cases hclosed : i < s.numSockets ∧ (s.sockets i).conn = false
    swap
    · rw [if_neg hclosed] at hs
      cases hs
    rw [if_pos hclosed] at hs
    cases hs
    -- nobody is registered on a socket that is not open
    have hnobody : ∀ t, (s.sel t).registered i = false := by
      intro t
      by_contra hreg
      rw [Bool.not_eq_false] at hreg
      cases hclosed.2.symm.trans (h.opened t i hreg).2
    set sock : LwipSock := ⟨true, false, 0, if sendevent then 1 else 0, 0, 0⟩
    have hzero : sock.selectWaiting = (s.sockets i).selectWaiting := by
      refine BitVec.eq_of_toInt_eq ?_
      rw [h.counts i]
      simp [hnobody, sock]
    have hcore := h.withSocket (i := i) hzero fun t hreg ↦ nomatch (hnobody t).symm.trans hreg
    refine ⟨l, hcore, fun t j hdue ↦ ?_⟩
    by_cases hj : j = i
    · subst hj
      cases (hnobody t).symm.trans (hcore.registered_of_due hdue)
    · exact hawake t j (hdue.of_socket hj)
  | freeSocket i =>
    rw [selectSysStep] at hs
    split_ifs at hs with hwatched
    cases hs
    have hnobody : ∀ t, (s.sel t).registered i = false := by
      intro t
      by_contra hreg
      rw [Bool.not_eq_false] at hreg
      have hwaits := SelThread.waits_of_enlisted (SelThread.enlisted_of_registered hreg)
      refine hwatched (List.any_eq_true.2 ⟨t, ?_, ?_⟩)
      · refine List.mem_range.2 ((h.threads t).resolve_right fun ⟨r, hr⟩ ↦ ?_)
        rw [hr] at hwaits
        cases hwaits
      · rw [SelThread.registered, Bool.and_eq_true] at hreg
        simpa [hwaits] using hreg.1
    refine ⟨l, h.withSocket rfl (fun t hreg ↦ nomatch (hnobody t).symm.trans hreg), hawake.mono rfl fun t j hdue ↦ ?_⟩
    by_cases hj : j = i
    · subst hj
      have hwants := hdue.wants
      simp only [update_self] at hwants
      exact ⟨hdue.watching, hdue.lt, hdue.unsignalled, hwants⟩
    · exact hdue.of_socket hj
  | read i lastdata =>
    cases hs
    refine ⟨l, h.withSocket rfl fun t hreg ↦ (h.opened t i hreg).2, hawake.mono rfl fun t j hdue ↦ ?_⟩
    by_cases hj : j = i
    · subst hj
      have hwants := hdue.wants
      simp only [update_self] at hwants
      exact ⟨hdue.watching, hdue.lt, hdue.unsignalled, hwants⟩
    · exact hdue.of_socket hj

/-- **No wakeup is lost.** After any steps of any threads in `lwip_select` and in `event_callback`: the list is a
doubly linked list of exactly the selects that have put themselves on it; `select_waiting` counts the selects
that are registered on a socket; no semaphore was signalled twice; and if no `event_callback` is on its walk over the
list, then nothing has happened that a blocked select waits for, unless its semaphore was signalled. -/
theorem select_no_lost_wakeup (numSockets numThreads : ℕ) {ls : List SelectLabel}
    (h : runLabels selectSysStep ls (.init numSockets numThreads) = some s) :
    (∃ l, DLinks (fun t ↦ (s.cb t).next) (fun t ↦ (s.cb t).prev) none s.selectCbList l ∧ l.Nodup ∧
      ∀ t, t ∈ l ↔ (s.sel t).enlisted) ∧
    (∀ i, (s.sockets i).selectWaiting.toInt = {t | (s.sel t).registered i = true}.ncard) ∧
    (∀ t, (s.cb t).signals ≤ 1) ∧
    ((∀ e i scb last, s.ev e ≠ .walking i scb last) → ∀ t r, (s.sel t).pc = .blocked r →
      (s.cb t).semSignalled = false → ∀ i, i < (s.sel t).args.maxfdp1 →
        (s.sel t).args.sets.wants i (s.sockets i) = false) := by
  have hinv : ∃ l, Core s l ∧ Awake s l :=
    runLabels_invariant (I := fun s ↦ ∃ l, Core s l ∧ Awake s l) ⟨[], core_init _ _, awake_init _ _⟩
      (fun _ _ _ ⟨_, hcore, hawake⟩ hl ↦ selectSysStep_awake hcore hawake hl) h
  obtain ⟨l, hcore, hawake⟩ := hinv
  refine ⟨⟨l, hcore.links, hcore.nodup, hcore.mem⟩, fun i ↦ ?_, fun t ↦ ?_, fun hquiet t r hpc hunsignalled i hlt ↦ ?_⟩
  · have hset : {t | (s.sel t).registered i = true} = ↑(l.filter fun t ↦ (s.sel t).registered i).toFinset := by
      ext t
      simp only [Set.mem_ofPred_eq, List.coe_toFinset, List.mem_filter]
      exact ⟨fun hreg ↦ ⟨(hcore.mem t).2 (SelThread.enlisted_of_registered hreg), hreg⟩, And.right⟩
    rw [hcore.counts i, hset, Set.ncard_coe_finset, List.toFinset_card_of_nodup (hcore.nodup.filter _),
      List.countP_eq_length_filter]
  · rw [hcore.signals t]
    exact Bool.toNat_le _
  · by_contra hwants
    rw [Bool.not_eq_false] at hwants
    have hsets := hcore.sets t (by rw [hpc]; rfl)
    obtain ⟨e, scb, last, hev, -⟩ :=
      hawake t i ⟨by rw [SelThread.watching, hpc]; trivial, hlt, hunsignalled, by rw [hsets]; exact hwants⟩
    exact hquiet e i scb last hev

/-- A select for reading blocks, data arrives, and it is signalled once. -/
theorem select_no_lost_wakeup_data :
    ∃ s, runLabels selectSysStep
        [.allocSocket 0 false, .select 0 ⟨1, ⟨some [0], none, none⟩, none⟩, .selectStep 0 true, .selectStep 0 true,
          .selectStep 0 true, .selectStep 0 true, .selectStep 0 true, .selectStep 0 true, .selectStep 0 true,
          .event 0 0 .rcvplus, .eventStep 0, .eventStep 0] (.init 1 1) = some s ∧
      ((s.sel 0).pc = .blocked ⟨1, 0, [], [], []⟩ ∧ (s.cb 0).sem = 1 ∧ (s.sockets 0).selectWaiting.toInt = 1) ∧
      (s.cb 0).signals ≤ 1 ∧ (s.sockets 0).selectWaiting.toInt = {t | (s.sel t).registered 0 = true}.ncard := by
  refine exists_run_of_observe (fun s ↦ ((s.sel 0).pc, (s.cb 0).sem, (s.sockets 0).selectWaiting))
    (.blocked ⟨1, 0, [], [], []⟩, 1, 1) (by decide) fun s hs hobs ↦ ?_
  obtain ⟨hpc, hsem, hwaiting⟩ : (s.sel 0).pc = _ ∧ (s.cb 0).sem = 1 ∧ (s.sockets 0).selectWaiting = 1 := by
    simpa using hobs
  obtain ⟨-, hcounts, hsignals, -⟩ := select_no_lost_wakeup 1 1 hs
  exact ⟨⟨hpc, hsem, by rw [hwaiting]; rfl⟩, hsignals 0, hcounts 0⟩

end Lwip.Sockets
