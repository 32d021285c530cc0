import LwipPoc.Foundation.CycleFinding

/-!
# The check of the memory pools

`memp_sanity` of `core/memp.c` looks for circles in the free lists of the pools. Nothing is assumed of the lists: the
elements, of which there are finitely many, link to one another in any way, and two lists may share elements.
-/

namespace Lwip.Core

/-- The elements of all pools with their links, and the first elements of the free lists. -/
structure MempPools (α : Type*) where
  next : α → Option α
  mempTab : List (Option α)

namespace MempPools

variable {α : Type*} (s : MempPools α)

/-- `h = ((h->next != NULL) && (h->next->next != NULL)) ? h->next->next : NULL`. -/
def advance (h : α) : Option α :=
  match s.next h with
  | none => none
  | some h' => if s.next h' = none then none else s.next h'

/-- Two links, as far as there are. -/
theorem advance_eq (h : α) : s.advance h = (s.next h).bind s.next := by
  rw [advance]
  cases s.next h with
  | none => rfl
  | some h' =>
    dsimp only [Option.bind_some]
    split_ifs with hend
    · exact hend.symm
    · rfl

variable [DecidableEq α]

/-- The loop over the elements of a list, which may take `fuel` rounds: whether it returns 0. -/
def circleLoop : ℕ → Option α → Option α → Option Bool
  | 0, _, _ => none
  | fuel + 1, t, h =>
    match t, h with
    | some t, some h => if t = h then some true else circleLoop fuel (s.next t) (s.advance h)
    | _, _ => some false

/-- The loop over the pools. -/
def poolsLoop (fuel : ℕ) : List (Option α) → Option ℕ
  | [] => some 1
  | none :: ts => poolsLoop fuel ts
  | some t :: ts => (s.circleLoop fuel (some t) (s.next t)).bind fun circle ↦ if circle then some 0 else poolsLoop fuel ts

/-- `memp_sanity`. -/
def mempSanity (fuel : ℕ) : Option ℕ := s.poolsLoop fuel s.mempTab

/-! ### The result -/

/-- The loop is the race of two pointers. -/
theorem circleLoop_eq (fuel : ℕ) (t h : Option α) : s.circleLoop fuel t h = race s.next fuel t h := by
  induction fuel generalizing t h with
  | zero => rfl
  | succ fuel ih =>
    rcases t with - | t
    · rfl
    rcases h with - | h
    · rfl
    rw [circleLoop, race, ih, advance_eq]

/-- What the loop returns for any of the lists. -/
theorem poolsLoop_eq [Fintype α] (fuel : ℕ) (ts : List (Option α)) :
    ∃ r, s.poolsLoop (Fintype.card α + 1 + fuel) ts = some r ∧ (r = 1 ↔ ∀ t ∈ ts, ¬Cyclic s.next t) ∧
      (r = 0 ↔ ∃ t ∈ ts, Cyclic s.next t) := by
  induction ts with
  | nil => exact ⟨1, rfl, by simp, by simp⟩
  | cons t ts ih =>
    obtain ⟨r, hr, hone, hzero⟩ := ih
    cases t with
    | none =>
      have hnone : ¬Cyclic s.next none := fun h ↦ h.not_ends ⟨0, rfl⟩
      refine ⟨r, hr, ?_, ?_⟩
      · rw [hone, List.forall_mem_cons, and_iff_right hnone]
      · rw [hzero, List.exists_mem_cons_iff, or_iff_right hnone]
    | some t =>
      obtain ⟨circle, hcircle, hcyclic⟩ := race_eq s.next (some t) fuel
      rw [poolsLoop, circleLoop_eq]
      rw [Option.bind_some] at hcircle
      rw [hcircle, Option.bind_some, List.forall_mem_cons, List.exists_mem_cons_iff, ← hcyclic]
      cases circle with
      | true => exact ⟨0, rfl, by simp, by simp⟩
      | false => exact ⟨r, hr, by simpa using hone, by simpa using hzero⟩

/-- **`memp_sanity` terminates** after at most as many rounds for a pool as there are elements, and one more, and
returns 1 exactly when no free list has a circle, and 0 exactly when one has. -/
theorem mempSanity_returns [Fintype α] (fuel : ℕ) :
    ∃ r, s.mempSanity (Fintype.card α + 1 + fuel) = some r ∧ (r = 1 ↔ ∀ t ∈ s.mempTab, ¬Cyclic s.next t) ∧
      (r = 0 ↔ ∃ t ∈ s.mempTab, Cyclic s.next t) :=
  s.poolsLoop_eq fuel s.mempTab

/-- Four elements: 0 leads to 1, 2 to 3, and 3 to itself. -/
example : (⟨fun a ↦ [some 1, none, some 3, some 3].getD a none, [none, some 0, some 2]⟩ : MempPools (Fin 4)).mempSanity 5 =
      some 0 ∧
    (⟨fun a ↦ [some 1, none, some 3, some 3].getD a none, [none, some 0]⟩ : MempPools (Fin 4)).mempSanity 5 = some 1 := by
  decide

end MempPools

end Lwip.Core
