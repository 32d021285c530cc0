import Mathlib.Data.List.Induction
import Mathlib.Tactic.Common

/-!
# Slots and the requests in them

Requests are put into slots; a request may leave a **callback**, which is called with a result. A ledger records
what has happened to the slots, and the question is whether every callback got its answer, once, before its slot
went to somebody else.

That is `Answered`, which speaks of the stretch of the ledger in which a slot is a request's. `Proper` is the local
form, for which one looks at one event at a time and at `waiting`, the callback that a slot still owes an answer;
`Proper.answered` gets the one from the other.
-/

/-- What happens to a slot. -/
inductive SlotEvent (ι φ ρ : Type*)
  /-- A request takes the slot and leaves a callback, or none. -/
  | took (i : ι) (found : Option φ)
  /-- The slot's callback is called. -/
  | called (i : ι) (found : φ) (result : ρ)
  /-- The slot is released. -/
  | freed (i : ι)
  deriving DecidableEq, Repr

namespace SlotEvent

variable {ι φ ρ : Type*} [DecidableEq ι]

/-- The slot is taken, by whomever. -/
def Takes (i : ι) : SlotEvent ι φ ρ → Prop
  | took j _ => j = i
  | _ => False

/-- The slot is released, or taken again. -/
def Ends (i : ι) : SlotEvent ι φ ρ → Prop
  | took j _ => j = i
  | freed j => j = i
  | called .. => False

/-- The callbacks that were called for a slot. -/
def calls (i : ι) (log : List (SlotEvent ι φ ρ)) : List φ :=
  log.filterMap fun
    | called j f _ => if j = i then some f else none
    | _ => none

/-- **Every request gets its answer.** While a slot is a request's, its callback and no other is called, at most
once; and if the slot is released or taken again, the callback has been called before. -/
def Answered (log : List (SlotEvent ι φ ρ)) : Prop :=
  ∀ before i f during after, log = before ++ took i (some f) :: (during ++ after) → (∀ e ∈ during, ¬Takes i e) →
    (calls i during = [] ∨ calls i during = [f]) ∧
      ∀ e rest, after = e :: rest → Ends i e → calls i during = [f]

/-! ### One event at a time -/

/-- What an event does to the callback that the slot owes an answer. -/
def owe (i : ι) (w : Option φ) : SlotEvent ι φ ρ → Option φ
  | took j found => if j = i then found else w
  | called j _ _ => if j = i then none else w
  | freed _ => w

/-- The callback that the slot owes an answer. -/
def waiting (i : ι) (log : List (SlotEvent ι φ ρ)) : Option φ := log.foldl (owe i) none

/-- An event is **proper**: only what waits is called, and nothing waits in a slot that is given up. -/
def Fits (log : List (SlotEvent ι φ ρ)) : SlotEvent ι φ ρ → Prop
  | took i _ => waiting i log = none
  | called i f _ => waiting i log = some f
  | freed i => waiting i log = none

/-- A ledger of proper events. -/
def Proper (log : List (SlotEvent ι φ ρ)) : Prop := ∀ pre e post, log = pre ++ e :: post → Fits pre e

variable {log : List (SlotEvent ι φ ρ)} {e : SlotEvent ι φ ρ} {i j : ι} {f : φ}

theorem waiting_concat (i : ι) (log : List (SlotEvent ι φ ρ)) (e : SlotEvent ι φ ρ) :
    waiting i (log ++ [e]) = owe i (waiting i log) e := by
  rw [waiting, List.foldl_append]
  rfl

@[simp] theorem waiting_took (i j : ι) (log : List (SlotEvent ι φ ρ)) (found : Option φ) :
    waiting i (log ++ [took j found]) = if j = i then found else waiting i log := waiting_concat i log _

@[simp] theorem waiting_called (i j : ι) (log : List (SlotEvent ι φ ρ)) (f : φ) (r : ρ) :
    waiting i (log ++ [called j f r]) = if j = i then none else waiting i log := waiting_concat i log _

@[simp] theorem waiting_freed (i j : ι) (log : List (SlotEvent ι φ ρ)) :
    waiting i (log ++ [freed j]) = waiting i log := waiting_concat i log _

theorem proper_nil : Proper ([] : List (SlotEvent ι φ ρ)) := by
  intro pre e post h
  simp at h

theorem Proper.concat (h : Proper log) (he : Fits log e) : Proper (log ++ [e]) := by
  intro pre e' post heq
  rcases List.eq_nil_or_concat post with rfl | ⟨post, e'', rfl⟩
  · obtain ⟨rfl, hcons⟩ := List.append_inj' heq rfl
    obtain rfl : e = e' := by simpa using hcons
    exact he
  · rw [List.concat_eq_append, ← List.cons_append, ← List.append_assoc] at heq
    exact h pre e' post (List.append_inj' heq rfl).1

theorem Proper.of_append {log' : List (SlotEvent ι φ ρ)} (h : Proper (log ++ log')) : Proper log := by
  intro pre e post heq
  refine h pre e (post ++ log') ?_
  rw [heq, List.append_assoc, List.cons_append]

theorem Proper.fits {pre post : List (SlotEvent ι φ ρ)} (h : Proper (pre ++ e :: post)) : Fits pre e :=
  h pre e post rfl

theorem calls_concat (i : ι) (log : List (SlotEvent ι φ ρ)) (e : SlotEvent ι φ ρ) :
    calls i (log ++ [e]) = calls i log ++ calls i [e] := List.filterMap_append

/-- While a slot is a request's, its callback waits or it was called. -/
theorem Proper.waits_or_called {before during : List (SlotEvent ι φ ρ)}
    (h : Proper (before ++ took i (some f) :: during)) (hduring : ∀ e ∈ during, ¬Takes i e) :
    calls i during = [] ∧ waiting i (before ++ took i (some f) :: during) = some f ∨
      calls i during = [f] ∧ waiting i (before ++ took i (some f) :: during) = none := by
  induction during using List.reverseRecOn with
  | nil => exact Or.inl ⟨rfl, by simp⟩
  | append_singleton during e ih =>
    rw [← List.cons_append, ← List.append_assoc] at h ⊢
    have hmem : ∀ e' ∈ during, ¬Takes i e' := fun e' he' ↦ hduring e' (List.mem_append_left _ he')
    have hlast : ¬Takes i e := hduring e (by simp)
    have hfits := h.fits
    rw [calls_concat, waiting_concat]
    rcases ih h.of_append hmem with ⟨hcalls, hwaiting⟩ | ⟨hcalls, hwaiting⟩ <;> rw [hcalls, hwaiting]
    · cases e with
      | took j found => exact Or.inl ⟨rfl, if_neg hlast⟩
      | called j g r =>
        by_cases hj : j = i
        · subst hj
          obtain rfl : f = g := Option.some.inj (hwaiting.symm.trans hfits)
          exact Or.inr ⟨by simp [calls], if_pos rfl⟩
        · exact Or.inl ⟨by simp [calls, hj], if_neg hj⟩
      | freed j => exact Or.inl ⟨rfl, rfl⟩
    · cases e with
      | took j found => exact Or.inr ⟨rfl, if_neg hlast⟩
      | called j g r =>
        have hj : j ≠ i := by
          rintro rfl
          cases hwaiting.symm.trans hfits
        exact Or.inr ⟨by simp [calls, hj], if_neg hj⟩
      | freed j => exact Or.inr ⟨rfl, rfl⟩

/-- **Proper events answer every request.** -/
theorem Proper.answered (h : Proper log) : Answered log := by
  rintro before i f during after rfl hduring
  rw [← List.cons_append, ← List.append_assoc] at h
  have hcases := h.of_append.waits_or_called hduring
  refine ⟨hcases.imp And.left And.left, ?_⟩
  rintro e rest rfl hends
  have hwaiting : waiting i (before ++ took i (some f) :: during) = none := by
    have hfits := h.fits
    cases e with
    | took j found =>
      obtain rfl : j = i := hends
      exact hfits
    | called j g r => exact hends.elim
    | freed j =>
      obtain rfl : j = i := hends
      exact hfits
  rcases hcases with ⟨-, hsome⟩ | ⟨hcalls, -⟩
  · cases hsome.symm.trans hwaiting
  · exact hcalls

end SlotEvent
