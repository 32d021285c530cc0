import Mathlib.Data.List.Basic
import Mathlib.Logic.Function.Basic
import Mathlib.Logic.Relation

/-!
# Waiting rooms

**Tickets** wait in rooms, one room for each key. Whoever runs the rooms takes a ticket in hand, and
then puts it at the end of the queue of its room or gives it up. A room is **opened** with some value,
and from then on the tickets at the head of its queue may be served with that value; or the ticket at
the head is dismissed. To serve or dismiss a ticket, or to give it up, is to release it.

All of this is written down in a log. What can be read off it at the end of any run:

* a ticket that was put into a queue has **exactly one fate** — it waits there, or it was served once,
  with the value its room was opened with last, or it was dismissed (`existsUnique_fate`);
* every other ticket was released as often as it was taken (`balanced_of_not_admitted`);
* the tickets of a room are served **in the order in which they were put there** (`served_sublist`).
-/

namespace Rooms

/-- What is written down. -/
inductive Event (κ ρ σ : Type*)
  | taken (r : ρ)
  | admitted (r : ρ)
  | opened (k : κ) (x : σ)
  | served (r : ρ) (x : σ)
  | released (r : ρ)
  deriving DecidableEq

/-- The ticket that an event is about. -/
def Event.ticket {κ ρ σ : Type*} : Event κ ρ σ → Option ρ
  | .taken r | .admitted r | .served r _ | .released r => some r
  | .opened _ _ => none

end Rooms

/-- Rooms with their queues, and the ticket in hand. -/
structure Rooms (κ ρ σ : Type*) where
  waiting : κ → List ρ
  hand : Option ρ
  log : List (Rooms.Event κ ρ σ)

namespace Rooms

variable {κ ρ σ : Type*}

/-- Empty rooms. -/
def init : Rooms κ ρ σ := ⟨fun _ ↦ [], none, []⟩

/-- Nothing was written down about the ticket. -/
def Fresh (R : Rooms κ ρ σ) (r : ρ) : Prop := ∀ e ∈ R.log, e.ticket ≠ some r

/-! ### Reading the log -/

/-- What was opened last, and with what, if it was `o` before. -/
def lastOpened : Option (κ × σ) → List (Event κ ρ σ) → Option (κ × σ)
  | o, [] => o
  | _, .opened k x :: l => lastOpened (some (k, x)) l
  | o, .taken _ :: l | o, .admitted _ :: l | o, .served _ _ :: l | o, .released _ :: l => lastOpened o l

/-- Whoever is served is served with what its room was opened with last. -/
def Proper (room : ρ → κ) : Option (κ × σ) → List (Event κ ρ σ) → Prop
  | _, [] => True
  | _, .opened k x :: l => Proper room (some (k, x)) l
  | o, .served r x :: l => o = some (room r, x) ∧ Proper room o l
  | o, .taken _ :: l | o, .admitted _ :: l | o, .released _ :: l => Proper room o l

@[simp] theorem lastOpened_append {o : Option (κ × σ)} {l l' : List (Event κ ρ σ)} :
    lastOpened o (l ++ l') = lastOpened (lastOpened o l) l' := by
  induction l generalizing o with
  | nil => rfl
  | cons e l ih => cases e <;> exact ih

@[simp] theorem proper_append {room : ρ → κ} {o : Option (κ × σ)} {l l' : List (Event κ ρ σ)} :
    Proper room o (l ++ l') ↔ Proper room o l ∧ Proper room (lastOpened o l) l' := by
  induction l generalizing o with
  | nil => exact (true_and _).symm.to_iff
  | cons e l ih =>
    cases e with
    | served r x => exact (and_congr_right fun _ ↦ ih).trans and_assoc.symm
    | taken r | admitted r | opened k x | released r => exact ih

/-- **Reading off the value** that a ticket was served with. -/
theorem Proper.lastOpened_eq {room : ρ → κ} {l l' : List (Event κ ρ σ)} {r : ρ} {x : σ}
    (h : Proper room none (l ++ .served r x :: l')) : lastOpened none l = some (room r, x) :=
  (proper_append.1 h).2.1

variable [DecidableEq ρ]

/-- An event at which the ticket is served. -/
def isServed (r : ρ) : Event κ ρ σ → Bool
  | .served r' _ => r' = r
  | _ => false

/-- How often a ticket was served. -/
def servings (r : ρ) (l : List (Event κ ρ σ)) : ℕ := l.countP (isServed r)

variable [DecidableEq κ] (may : ρ → Prop) (room : ρ → κ)

/-- The tickets of a room that were served, in order. -/
def servedAt (k : κ) (l : List (Event κ ρ σ)) : List ρ :=
  l.filterMap fun
    | .served r _ => if room r = k then some r else none
    | _ => none

/-- The tickets that were put into a room, in order. -/
def admittedAt (k : κ) (l : List (Event κ ρ σ)) : List ρ :=
  l.filterMap fun
    | .admitted r => if room r = k then some r else none
    | _ => none

/-! ### Steps -/

/-- What may happen; `may` says which tickets may be taken. -/
inductive Step : Rooms κ ρ σ → Rooms κ ρ σ → Prop
  | take {R : Rooms κ ρ σ} (r : ρ) : may r → R.hand = none → R.Fresh r →
      Step R ⟨R.waiting, some r, R.log ++ [.taken r]⟩
  | giveUp {R : Rooms κ ρ σ} (r : ρ) : R.hand = some r →
      Step R ⟨R.waiting, none, R.log ++ [.released r]⟩
  | put {R : Rooms κ ρ σ} (r : ρ) : R.hand = some r →
      Step R ⟨Function.update R.waiting (room r) (R.waiting (room r) ++ [r]), none,
        R.log ++ [.admitted r]⟩
  | dismiss {R : Rooms κ ρ σ} (k : κ) (r : ρ) (rs : List ρ) : R.waiting k = r :: rs →
      Step R ⟨Function.update R.waiting k rs, R.hand, R.log ++ [.released r]⟩
  | unlock {R : Rooms κ ρ σ} (k : κ) (x : σ) : Step R ⟨R.waiting, R.hand, R.log ++ [.opened k x]⟩
  | serve {R : Rooms κ ρ σ} (k : κ) (x : σ) (r : ρ) (rs : List ρ) : R.waiting k = r :: rs →
      lastOpened none R.log = some (k, x) →
      Step R ⟨Function.update R.waiting k rs, R.hand, R.log ++ [.served r x, .released r]⟩

variable [DecidableEq σ]

/-- **The accounts** of the rooms. -/
structure Accounts (R : Rooms κ ρ σ) : Prop where
  /-- Tickets wait in their own rooms. -/
  room_eq : ∀ k, ∀ r ∈ R.waiting k, room r = k
  /-- They were put there. -/
  admitted : ∀ k, ∀ r ∈ R.waiting k, Event.admitted r ∈ R.log
  /-- What was taken and not released waits, or is in hand. -/
  balance : ∀ r, R.log.count (.taken r) =
    R.log.count (.released r) + (R.waiting (room r)).count r + R.hand.toList.count r
  /-- No ticket is taken twice. -/
  once : ∀ r, R.log.count (.taken r) ≤ 1
  /-- What was put into a queue, or is in hand, was taken. -/
  admitted_le : ∀ r, R.log.count (.admitted r) + R.hand.toList.count r ≤ R.log.count (.taken r)
  /-- Who is served is released. -/
  served_le : ∀ r, servings r R.log ≤ R.log.count (.released r)
  proper : Proper room none R.log
  /-- First in, first out. -/
  order : ∀ k, (servedAt room k R.log ++ R.waiting k).Sublist (admittedAt room k R.log)

variable {may room} {R R' : Rooms κ ρ σ} {r : ρ} {k : κ} {x : σ} {l l' : List (Event κ ρ σ)}

theorem accounts_init : Accounts room (init : Rooms κ ρ σ) :=
  ⟨by simp [init], by simp [init], by simp [init], by simp [init], by simp [init],
    by simp [init, servings], trivial, by simp [init, servedAt]⟩

/-- A fresh ticket was not taken. -/
theorem Fresh.count_taken (h : R.Fresh r) : R.log.count (.taken r) = 0 :=
  List.count_eq_zero.2 fun hmem ↦ h _ hmem rfl

/-- Taking a ticket. -/
theorem Accounts.take (h : Accounts room R) (hhand : R.hand = none) (hr : R.Fresh r) :
    Accounts room (⟨R.waiting, some r, R.log ++ [.taken r]⟩ : Rooms κ ρ σ) := by
  have hcount := hr.count_taken
  refine ⟨h.room_eq, fun k q hq ↦ ?_, fun q ↦ ?_, fun q ↦ ?_, fun q ↦ ?_, fun q ↦ ?_, ?_, fun k ↦ ?_⟩
  · exact List.mem_append_left _ (h.admitted k q hq)
  · have hb := h.balance q
    rw [hhand] at hb
    rcases eq_or_ne q r with rfl | hne
    · simp at hb ⊢
      omega
    · simpa [hne.symm] using hb
  · rcases eq_or_ne q r with rfl | hne
    · simp [hcount]
    · simpa [hne.symm] using h.once q
  · have hle := h.admitted_le q
    rw [hhand] at hle
    rcases eq_or_ne q r with rfl | hne
    · simpa using hle
    · simpa [hne.symm] using hle
  · simpa [servings, isServed] using h.served_le q
  · simpa [Proper] using h.proper
  · simpa [servedAt, admittedAt] using h.order k

/-- Giving up the ticket in hand. -/
theorem Accounts.giveUp (h : Accounts room R) (hhand : R.hand = some r) :
    Accounts room (⟨R.waiting, none, R.log ++ [.released r]⟩ : Rooms κ ρ σ) := by
  refine ⟨h.room_eq, fun k q hq ↦ ?_, fun q ↦ ?_, fun q ↦ ?_, fun q ↦ ?_, fun q ↦ ?_, ?_, fun k ↦ ?_⟩
  · exact List.mem_append_left _ (h.admitted k q hq)
  · have hb := h.balance q
    rw [hhand] at hb
    rcases eq_or_ne q r with rfl | hne
    · simp at hb ⊢
      omega
    · simpa [hne.symm] using hb
  · simpa using h.once q
  · have hle := h.admitted_le q
    simp only [List.count_append] at hle ⊢
    simp
    omega
  · have hle := h.served_le q
    simp only [servings, List.countP_append, List.count_append] at hle ⊢
    simp [isServed]
    omega
  · simpa [Proper] using h.proper
  · simpa [servedAt, admittedAt] using h.order k

/-- Putting the ticket in hand into its queue. -/
theorem Accounts.put (h : Accounts room R) (hhand : R.hand = some r) :
    Accounts room (⟨Function.update R.waiting (room r) (R.waiting (room r) ++ [r]), none,
      R.log ++ [.admitted r]⟩ : Rooms κ ρ σ) := by
  have hmem : ∀ k, ∀ q ∈ Function.update R.waiting (room r) (R.waiting (room r) ++ [r]) k,
      q ∈ R.waiting k ∨ q = r ∧ k = room r := by
    intro k q hq
    rcases eq_or_ne k (room r) with rfl | hk
    · rw [Function.update_self] at hq
      exact (List.mem_append.1 hq).imp_right fun hq ↦ ⟨List.mem_singleton.1 hq, rfl⟩
    · rw [Function.update_of_ne hk] at hq
      exact Or.inl hq
  refine ⟨fun k q hq ↦ ?_, fun k q hq ↦ ?_, fun q ↦ ?_, fun q ↦ ?_, fun q ↦ ?_, fun q ↦ ?_, ?_,
    fun k ↦ ?_⟩
  · rcases hmem k q hq with hq | ⟨rfl, rfl⟩
    · exact h.room_eq k q hq
    · rfl
  · rcases hmem k q hq with hq | ⟨rfl, rfl⟩
    · exact List.mem_append_left _ (h.admitted k q hq)
    · exact List.mem_append_right _ List.mem_cons_self
  · have hb := h.balance q
    rw [hhand] at hb
    rcases eq_or_ne q r with rfl | hne
    · simp at hb ⊢
      omega
    · rcases eq_or_ne (room q) (room r) with hk | hk
      · simpa [hne.symm, hk] using hb
      · simpa [hne.symm, hk] using hb
  · simpa using h.once q
  · have hle := h.admitted_le q
    rw [hhand] at hle
    rcases eq_or_ne q r with rfl | hne
    · simpa using hle
    · simpa [hne.symm] using hle
  · simpa [servings, isServed] using h.served_le q
  · simpa [Proper] using h.proper
  · rcases eq_or_ne k (room r) with rfl | hk
    · have horder := (h.order (room r)).append (List.Sublist.refl [r])
      simpa [servedAt, admittedAt] using horder
    · simpa [servedAt, admittedAt, hk, hk.symm] using h.order k

/-- Dismissing the ticket at the head of a queue. -/
theorem Accounts.dismiss {rs : List ρ} (h : Accounts room R) (hk : R.waiting k = r :: rs) :
    Accounts room (⟨Function.update R.waiting k rs, R.hand, R.log ++ [.released r]⟩ :
      Rooms κ ρ σ) := by
  have hr : room r = k := h.room_eq k r (by simp [hk])
  have hmem : ∀ k', ∀ q ∈ Function.update R.waiting k rs k', q ∈ R.waiting k' := by
    intro k' q hq
    rcases eq_or_ne k' k with rfl | hne
    · rw [Function.update_self] at hq
      rw [hk]
      exact List.mem_cons_of_mem r hq
    · rwa [Function.update_of_ne hne] at hq
  refine ⟨fun k' q hq ↦ h.room_eq k' q (hmem k' q hq), fun k' q hq ↦ ?_, fun q ↦ ?_, fun q ↦ ?_,
    fun q ↦ ?_, fun q ↦ ?_, ?_, fun k' ↦ ?_⟩
  · exact List.mem_append_left _ (h.admitted k' q (hmem k' q hq))
  · have hb := h.balance q
    rcases eq_or_ne q r with rfl | hne
    · rw [hr, hk] at hb
      simp [hr] at hb ⊢
      omega
    · rcases eq_or_ne (room q) k with hq | hq
      · rw [hq, hk] at hb
        simpa [hne.symm, hq] using hb
      · simpa [hne.symm, hq] using hb
  · simpa using h.once q
  · simpa using h.admitted_le q
  · have hle := h.served_le q
    simp only [servings, List.countP_append, List.count_append] at hle ⊢
    simp [isServed]
    omega
  · simpa [Proper] using h.proper
  · have horder := h.order k'
    rcases eq_or_ne k' k with rfl | hne
    · rw [hk] at horder
      have hsub : (servedAt room k' R.log ++ rs).Sublist (servedAt room k' R.log ++ r :: rs) :=
        (List.sublist_cons_self r rs).append_left _
      simpa [servedAt, admittedAt] using hsub.trans horder
    · simpa [servedAt, admittedAt, hne] using horder

/-- Opening a room. -/
theorem Accounts.unlock (h : Accounts room R) (k : κ) (x : σ) :
    Accounts room (⟨R.waiting, R.hand, R.log ++ [.opened k x]⟩ : Rooms κ ρ σ) := by
  refine ⟨h.room_eq, fun k' q hq ↦ ?_, fun q ↦ ?_, fun q ↦ ?_, fun q ↦ ?_, fun q ↦ ?_, ?_, fun k' ↦ ?_⟩
  · exact List.mem_append_left _ (h.admitted k' q hq)
  · simpa using h.balance q
  · simpa using h.once q
  · simpa using h.admitted_le q
  · simpa [servings, isServed] using h.served_le q
  · simpa [Proper] using h.proper
  · simpa [servedAt, admittedAt] using h.order k'

/-- Serving the ticket at the head of the queue of the room that was opened last. -/
theorem Accounts.serve {rs : List ρ} (h : Accounts room R) (hk : R.waiting k = r :: rs)
    (hopen : lastOpened none R.log = some (k, x)) :
    Accounts room (⟨Function.update R.waiting k rs, R.hand, R.log ++ [.served r x, .released r]⟩ :
      Rooms κ ρ σ) := by
  have hr : room r = k := h.room_eq k r (by simp [hk])
  have hdismiss := h.dismiss hk
  refine ⟨hdismiss.room_eq, fun k' q hq ↦ ?_, fun q ↦ ?_, fun q ↦ ?_, fun q ↦ ?_, fun q ↦ ?_, ?_,
    fun k' ↦ ?_⟩
  · have hadm := hdismiss.admitted k' q hq
    simp only [List.mem_append, List.mem_singleton, reduceCtorEq, or_false] at hadm
    exact List.mem_append_left _ hadm
  · simpa using hdismiss.balance q
  · simpa using hdismiss.once q
  · simpa using hdismiss.admitted_le q
  · have hle := h.served_le q
    simp only [servings, List.countP_append, List.count_append] at hle ⊢
    rcases eq_or_ne q r with rfl | hne
    · simp [isServed]
      omega
    · simp [isServed, hne.symm]
      omega
  · simpa [Proper, hopen, hr] using h.proper
  · have horder := h.order k'
    rcases eq_or_ne k' k with rfl | hne
    · rw [hk] at horder
      simpa [servedAt, admittedAt, hr] using horder
    · simpa [servedAt, admittedAt, hr, hne, hne.symm] using horder

/-- **One step** keeps the accounts. -/
theorem Accounts.step (h : Accounts room R) (hstep : Step may room R R') : Accounts room R' := by
  cases hstep with
  | take r _ hhand hr => exact h.take hhand hr
  | giveUp r hhand => exact h.giveUp hhand
  | put r hhand => exact h.put hhand
  | dismiss k r rs hk => exact h.dismiss hk
  | unlock k x => exact h.unlock k x
  | serve k x r rs hk hopen => exact h.serve hk hopen

variable (may room) in
/-- Many steps. -/
abbrev Steps : Rooms κ ρ σ → Rooms κ ρ σ → Prop := Relation.ReflTransGen (Step may room)

/-- **Every run** keeps the accounts. -/
theorem Accounts.steps (h : Accounts room R) (hsteps : Steps may room R R') : Accounts room R' := by
  induction hsteps with
  | refl => exact h
  | tail _ hstep ih => exact ih.step hstep

/-- All tickets that were ever seen have a property. -/
structure All (P : ρ → Prop) (R : Rooms κ ρ σ) : Prop where
  log : ∀ e ∈ R.log, ∀ r ∈ e.ticket, P r
  waiting : ∀ k, ∀ r ∈ R.waiting k, P r
  hand : ∀ r ∈ R.hand, P r

omit [DecidableEq κ] [DecidableEq ρ] [DecidableEq σ] in
/-- A ticket that was never seen is fresh. -/
theorem All.fresh (h : All (· ≠ r) R) : R.Fresh r := fun e he hr ↦ h.log e he r hr rfl

omit [DecidableEq ρ] [DecidableEq σ] in
/-- If all tickets that may be taken have the property, it stays so. -/
theorem All.step {P : ρ → Prop} (h : All P R) (hmay : ∀ r, may r → P r) (hstep : Step may room R R') :
    All P R' := by
  have hlog : ∀ {es : List (Event κ ρ σ)}, (∀ e ∈ es, ∀ r ∈ e.ticket, P r) →
      ∀ e ∈ R.log ++ es, ∀ r ∈ e.ticket, P r := fun hes e he ↦
    (List.mem_append.1 he).elim (h.log e) (hes e)
  have hwaiting : ∀ {k rs}, (∀ r ∈ rs, P r) →
      ∀ k', ∀ r ∈ Function.update R.waiting k rs k', P r := by
    intro k rs hrs k' r hr
    rcases eq_or_ne k' k with rfl | hne
    · rw [Function.update_self] at hr
      exact hrs r hr
    · rw [Function.update_of_ne hne] at hr
      exact h.waiting k' r hr
  cases hstep with
  | take r hr hhand _ =>
    exact ⟨hlog (by simpa [Event.ticket] using hmay r hr), h.waiting, by simpa using hmay r hr⟩
  | giveUp r hhand =>
    exact ⟨hlog (by simpa [Event.ticket] using h.hand r hhand), h.waiting, nofun⟩
  | put r hhand =>
    refine ⟨hlog (by simpa [Event.ticket] using h.hand r hhand), hwaiting fun q hq ↦ ?_, nofun⟩
    rcases List.mem_append.1 hq with hq | hq
    · exact h.waiting _ q hq
    · rw [List.mem_singleton.1 hq]
      exact h.hand r hhand
  | dismiss k r rs hk =>
    have hrs := h.waiting k
    rw [hk] at hrs
    exact ⟨hlog (by simpa [Event.ticket] using hrs r List.mem_cons_self),
      hwaiting fun q hq ↦ hrs q (List.mem_cons_of_mem r hq), h.hand⟩
  | unlock k x => exact ⟨hlog (by simp [Event.ticket]), h.waiting, h.hand⟩
  | serve k x r rs hk _ =>
    have hrs := h.waiting k
    rw [hk] at hrs
    exact ⟨hlog (by simpa [Event.ticket] using hrs r List.mem_cons_self),
      hwaiting fun q hq ↦ hrs q (List.mem_cons_of_mem r hq), h.hand⟩

omit [DecidableEq ρ] [DecidableEq σ] in
theorem All.steps {P : ρ → Prop} (h : All P R) (hmay : ∀ r, may r → P r)
    (hsteps : Steps may room R R') : All P R' := by
  induction hsteps with
  | refl => exact h
  | tail _ hstep ih => exact ih.step hmay hstep

/-! ### Emptying a room -/

omit [DecidableEq ρ] [DecidableEq σ] in
/-- Dismissing all who wait. -/
theorem steps_dismiss (R : Rooms κ ρ σ) (k : κ) :
    Steps may room R ⟨Function.update R.waiting k [], R.hand,
      R.log ++ (R.waiting k).map .released⟩ := by
  generalize hrs : R.waiting k = rs
  induction rs generalizing R with
  | nil =>
    have hsame : Function.update R.waiting k [] = R.waiting := by
      rw [← hrs, Function.update_eq_self]
    rw [hsame, List.map_nil, List.append_nil]
  | cons r rs ih =>
    have hrest := ih ⟨Function.update R.waiting k rs, R.hand, R.log ++ [.released r]⟩
      (Function.update_self k rs R.waiting)
    refine Relation.ReflTransGen.head (Step.dismiss k r rs hrs) ?_
    simpa using hrest

omit [DecidableEq ρ] [DecidableEq σ] in
/-- **Opening a room and serving all who wait.** -/
theorem steps_serve (R : Rooms κ ρ σ) (k : κ) (x : σ) :
    Steps may room R ⟨Function.update R.waiting k [], R.hand,
      R.log ++ .opened k x :: (R.waiting k).flatMap fun r ↦ [.served r x, .released r]⟩ := by
  have hall : ∀ (rs : List ρ) (R : Rooms κ ρ σ), R.waiting k = rs →
      lastOpened none R.log = some (k, x) →
      Steps may room R ⟨Function.update R.waiting k [], R.hand,
        R.log ++ rs.flatMap fun r ↦ [.served r x, .released r]⟩ := by
    intro rs
    induction rs with
    | nil =>
      intro R hrs _
      have hsame : Function.update R.waiting k [] = R.waiting := by
        rw [← hrs, Function.update_eq_self]
      rw [hsame, List.flatMap_nil, List.append_nil]
    | cons r rs ih =>
      intro R hrs hopen
      have hrest := ih ⟨Function.update R.waiting k rs, R.hand,
        R.log ++ [.served r x, .released r]⟩ (Function.update_self k rs R.waiting)
        (by simpa [lastOpened] using hopen)
      refine Relation.ReflTransGen.head (Step.serve k x r rs hrs hopen) ?_
      simpa using hrest
  have hserve := hall (R.waiting k) ⟨R.waiting, R.hand, R.log ++ [.opened k x]⟩ rfl
    (by simp [lastOpened])
  refine Relation.ReflTransGen.head (Step.unlock k x) ?_
  simpa using hserve

omit [DecidableEq ρ] [DecidableEq σ] in
/-- More tickets may be taken. -/
theorem Step.mono {may' : ρ → Prop} (hstep : Step may room R R') (hmay : ∀ r, may r → may' r) :
    Step may' room R R' := by
  cases hstep with
  | take r hr hhand hfresh => exact .take r (hmay r hr) hhand hfresh
  | giveUp r hhand => exact .giveUp r hhand
  | put r hhand => exact .put r hhand
  | dismiss k r rs hk => exact .dismiss k r rs hk
  | unlock k x => exact .unlock k x
  | serve k x r rs hk hopen => exact .serve k x r rs hk hopen

omit [DecidableEq ρ] [DecidableEq σ] in
theorem steps_mono {may' : ρ → Prop} (hsteps : Steps may room R R') (hmay : ∀ r, may r → may' r) :
    Steps may' room R R' := by
  induction hsteps with
  | refl => exact Relation.ReflTransGen.refl
  | tail _ hstep ih => exact ih.tail (hstep.mono hmay)

/-! ### Taking a ticket -/

omit [DecidableEq ρ] [DecidableEq σ] in
/-- Taking a ticket and giving it up. -/
theorem steps_refuse (hmay : may r) (hhand : R.hand = none) (hr : R.Fresh r) :
    Steps may room R ⟨R.waiting, none, R.log ++ [.taken r, .released r]⟩ := by
  have hgive : Step may room ⟨R.waiting, some r, R.log ++ [.taken r]⟩
      ⟨R.waiting, none, R.log ++ [.taken r] ++ [.released r]⟩ := Step.giveUp r rfl
  refine (Relation.ReflTransGen.single (Step.take r hmay hhand hr)).tail ?_
  simpa using hgive

omit [DecidableEq ρ] [DecidableEq σ] in
/-- Taking a ticket and putting it at the end of its queue. -/
theorem steps_admit (hmay : may r) (hhand : R.hand = none) (hr : R.Fresh r) :
    Steps may room R ⟨Function.update R.waiting (room r) (R.waiting (room r) ++ [r]), none,
      R.log ++ [.taken r, .admitted r]⟩ := by
  have hput : Step may room ⟨R.waiting, some r, R.log ++ [.taken r]⟩
      ⟨Function.update R.waiting (room r) (R.waiting (room r) ++ [r]), none,
        R.log ++ [.taken r] ++ [.admitted r]⟩ := Step.put r rfl
  refine (Relation.ReflTransGen.single (Step.take r hmay hhand hr)).tail ?_
  simpa using hput

omit [DecidableEq ρ] [DecidableEq σ] in
/-- Taking a ticket and putting it in the place of all who wait. -/
theorem steps_replace (hmay : may r) (hhand : R.hand = none) (hr : R.Fresh r) :
    Steps may room R ⟨Function.update R.waiting (room r) [r], none,
      R.log ++ .taken r :: ((R.waiting (room r)).map .released ++ [.admitted r])⟩ := by
  have hdismiss : Steps may room ⟨R.waiting, some r, R.log ++ [.taken r]⟩
      ⟨Function.update R.waiting (room r) [], some r,
        R.log ++ [.taken r] ++ (R.waiting (room r)).map .released⟩ := steps_dismiss _ (room r)
  have hput : Step may room ⟨Function.update R.waiting (room r) [], some r,
      R.log ++ [.taken r] ++ (R.waiting (room r)).map .released⟩ _ := Step.put r rfl
  refine ((Relation.ReflTransGen.single (Step.take r hmay hhand hr)).trans hdismiss).tail ?_
  simpa using hput

omit [DecidableEq ρ] [DecidableEq σ] in
/-- What was put into a queue was put there before, or taken, or in hand. -/
theorem admitted_of_steps (hsteps : Steps may room R R') :
    (∀ r ∈ R'.hand, may r ∨ r ∈ R.hand) ∧
      ∀ r, .admitted r ∈ R'.log → .admitted r ∈ R.log ∨ may r ∨ r ∈ R.hand := by
  induction hsteps with
  | refl => exact ⟨fun r hr ↦ Or.inr hr, fun r hr ↦ Or.inl hr⟩
  | tail _ hstep ih =>
    obtain ⟨hhand, hlog⟩ := ih
    cases hstep with
    | take r hr _ _ =>
      refine ⟨fun q hq ↦ ?_, fun q hq ↦ hlog q (by simpa using hq)⟩
      obtain rfl := Option.some.inj hq
      exact Or.inl hr
    | giveUp r _ => exact ⟨nofun, fun q hq ↦ hlog q (by simpa using hq)⟩
    | put r hr =>
      refine ⟨nofun, fun q hq ↦ ?_⟩
      rcases List.mem_append.1 hq with hq | hq
      · exact hlog q hq
      · obtain rfl := Event.admitted.inj (List.mem_singleton.1 hq)
        exact Or.inr (hhand q hr)
    | dismiss k r rs _ => exact ⟨hhand, fun q hq ↦ hlog q (by simpa using hq)⟩
    | unlock k x => exact ⟨hhand, fun q hq ↦ hlog q (by simpa using hq)⟩
    | serve k x r rs _ _ => exact ⟨hhand, fun q hq ↦ hlog q (by simpa using hq)⟩

omit [DecidableEq ρ] [DecidableEq σ] in
/-- Nothing is ever crossed out. -/
theorem log_subset_of_steps (hsteps : Steps may room R R') : R.log ⊆ R'.log := by
  induction hsteps with
  | refl => exact List.Subset.refl _
  | tail _ hstep ih =>
    cases hstep <;> exact List.Subset.trans ih (List.subset_append_left _ _)

/-! ### Fates -/

/-- What can become of a ticket in a queue. -/
inductive Fate
  | waits
  | served
  | dismissed
  deriving DecidableEq

variable (room) in
/-- **The fate** of a ticket. -/
def HasFate (R : Rooms κ ρ σ) (r : ρ) : Fate → Prop
  | .waits => (R.waiting (room r)).count r = 1 ∧ servings r R.log = 0 ∧
      R.log.count (.released r) = 0
  | .served => (∀ k, r ∉ R.waiting k) ∧ servings r R.log = 1 ∧ R.log.count (.released r) = 1 ∧
      ∃ l x l', R.log = l ++ .served r x :: l' ∧ lastOpened none l = some (room r, x)
  | .dismissed => (∀ k, r ∉ R.waiting k) ∧ servings r R.log = 0 ∧ R.log.count (.released r) = 1

/-- A ticket that does not wait in its own room does not wait. -/
theorem Accounts.not_mem_waiting (h : Accounts room R) (hr : (R.waiting (room r)).count r = 0) (k : κ) :
    r ∉ R.waiting k := by
  intro hmem
  obtain rfl := h.room_eq k r hmem
  exact List.count_eq_zero.1 hr hmem

/-- **Exactly one fate** for each ticket that was put into a queue. -/
theorem Accounts.existsUnique_fate (h : Accounts room R) (hr : .admitted r ∈ R.log) :
    ∃! f, HasFate room R r f := by
  have hadm : 0 < R.log.count (.admitted r) := List.count_pos_iff.2 hr
  have hle := h.admitted_le r
  have honce := h.once r
  have hb := h.balance r
  have hserved := h.served_le r
  have hcases : (R.waiting (room r)).count r = 1 ∧ servings r R.log = 0 ∧
        R.log.count (.released r) = 0 ∨
      (R.waiting (room r)).count r = 0 ∧ servings r R.log = 1 ∧ R.log.count (.released r) = 1 ∨
      (R.waiting (room r)).count r = 0 ∧ servings r R.log = 0 ∧ R.log.count (.released r) = 1 := by
    omega
  rcases hcases with ⟨hw, hs, hrel⟩ | ⟨hw, hs, hrel⟩ | ⟨hw, hs, hrel⟩
  · refine ⟨.waits, ⟨hw, hs, hrel⟩, fun f hf ↦ ?_⟩
    cases f with
    | waits => rfl
    | served => exact absurd (hf.2.2.1.symm.trans hrel) (by decide)
    | dismissed => exact absurd (hf.2.2.symm.trans hrel) (by decide)
  · have hpos : 0 < servings r R.log := by omega
    obtain ⟨e, he, heq⟩ := List.countP_pos_iff.1 hpos
    obtain ⟨x, rfl⟩ : ∃ x, e = .served r x := by
      cases e with
      | served r' x => exact ⟨x, by rw [of_decide_eq_true heq]⟩
      | taken | admitted | opened | released => cases heq
    obtain ⟨l, l', hlog⟩ := List.append_of_mem he
    refine ⟨.served, ⟨h.not_mem_waiting hw, hs, hrel, l, x, l', hlog,
      (hlog ▸ h.proper).lastOpened_eq⟩, fun f hf ↦ ?_⟩
    cases f with
    | waits => exact absurd (hf.2.2.symm.trans hrel) (by decide)
    | served => rfl
    | dismissed => exact absurd (hf.2.1.symm.trans hs) (by decide)
  · refine ⟨.dismissed, ⟨h.not_mem_waiting hw, hs, hrel⟩, fun f hf ↦ ?_⟩
    cases f with
    | waits => exact absurd (hf.2.2.symm.trans hrel) (by decide)
    | served => exact absurd (hf.2.1.symm.trans hs) (by decide)
    | dismissed => rfl

/-- **Every other ticket** is released as often as it is taken, when none is in hand. -/
theorem Accounts.balanced_of_not_admitted (h : Accounts room R) (hhand : R.hand = none)
    (hr : .admitted r ∉ R.log) :
    (∀ k, r ∉ R.waiting k) ∧ R.log.count (.taken r) = R.log.count (.released r) := by
  have hno : ∀ k, r ∉ R.waiting k := fun k hmem ↦ hr (h.admitted k r hmem)
  have hb := h.balance r
  rw [hhand, List.count_eq_zero.2 (hno (room r))] at hb
  exact ⟨hno, by simpa using hb⟩

/-- A ticket that is put into a queue is taken once, and put there once. -/
theorem Accounts.count_of_admitted (h : Accounts room R) (hr : .admitted r ∈ R.log) :
    R.log.count (.taken r) = 1 ∧ R.log.count (.admitted r) = 1 := by
  have hadm : 0 < R.log.count (.admitted r) := List.count_pos_iff.2 hr
  have hle := h.admitted_le r
  have honce := h.once r
  omega

omit [DecidableEq ρ] [DecidableEq σ] in
theorem mem_admittedAt : r ∈ admittedAt room k l ↔ .admitted r ∈ l ∧ room r = k := by
  rw [admittedAt, List.mem_filterMap]
  constructor
  · rintro ⟨e, he, heq⟩
    cases e with
    | admitted r' =>
      simp only [Option.ite_none_right_eq_some, Option.some.injEq] at heq
      obtain ⟨hk, rfl⟩ := heq
      exact ⟨he, hk⟩
    | taken | served | opened | released => cases heq
  · rintro ⟨he, hk⟩
    exact ⟨_, he, by simp [hk]⟩

omit [DecidableEq ρ] [DecidableEq σ] in
theorem mem_servedAt : r ∈ servedAt room k l ↔ (∃ x, .served r x ∈ l) ∧ room r = k := by
  rw [servedAt, List.mem_filterMap]
  constructor
  · rintro ⟨e, he, heq⟩
    cases e with
    | served r' x =>
      simp only [Option.ite_none_right_eq_some, Option.some.injEq] at heq
      obtain ⟨hk, rfl⟩ := heq
      exact ⟨⟨x, he⟩, hk⟩
    | taken | admitted | opened | released => cases heq
  · rintro ⟨⟨x, he⟩, hk⟩
    exact ⟨_, he, by simp [hk]⟩

/-- **First come, first served**, in each room; and those who wait come after those who were served. -/
theorem Accounts.served_sublist (h : Accounts room R) (k : κ) :
    (servedAt room k R.log).Sublist (admittedAt room k R.log) :=
  (List.sublist_append_left _ _).trans (h.order k)

/-- Whoever was served had been put into the queue. -/
theorem Accounts.admitted_of_served (h : Accounts room R) (hr : .served r x ∈ R.log) :
    .admitted r ∈ R.log :=
  (mem_admittedAt.1 ((h.served_sublist (room r)).subset (mem_servedAt.2 ⟨⟨x, hr⟩, rfl⟩))).1

/-- No ticket is put into a queue twice. -/
theorem Accounts.nodup_admittedAt (h : Accounts room R) (k : κ) : (admittedAt room k R.log).Nodup := by
  have hcount : ∀ (l : List (Event κ ρ σ)) (r : ρ),
      (admittedAt room k l).count r ≤ l.count (.admitted r) := by
    intro l r
    induction l with
    | nil => exact Nat.le_refl _
    | cons e l ih =>
      have hcons : admittedAt room k (e :: l) = admittedAt room k [e] ++ admittedAt room k l :=
        List.filterMap_append (l := [e])
      rw [hcons, List.count_append, List.count_cons, Nat.add_comm]
      refine Nat.add_le_add ih ?_
      cases e with
      | admitted r' =>
        by_cases hk : room r' = k
        · simp [admittedAt, hk, List.count_cons]
        · simp [admittedAt, hk]
      | taken | served | opened | released => exact Nat.zero_le _
  refine List.nodup_iff_count.2 fun r ↦ Nat.le_trans (hcount R.log r) ?_
  have hle := h.admitted_le r
  have honce := h.once r
  omega

end Rooms
