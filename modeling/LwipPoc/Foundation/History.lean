import Mathlib.Data.List.Basic

/-!
# Histories

What a component does is recorded in a list, and what it may do next depends on what it has done. A history is lawful if every
entry was allowed by the entries before it.
-/

variable {α : Type*} {R : List α → α → Prop} {l : List α} {a : α}

/-- Every entry is allowed by what came before it. -/
def LawfulHistory (R : List α → α → Prop) (l : List α) : Prop := ∀ l₀ a l₁, l = l₀ ++ a :: l₁ → R l₀ a

theorem lawfulHistory_nil : LawfulHistory R [] := by
  intro l₀ a l₁ h
  simp at h

/-- A lawful history goes on with an entry that it allows. -/
theorem LawfulHistory.concat (h : LawfulHistory R l) (ha : R l a) : LawfulHistory R (l ++ [a]) := by
  intro l₀ b l₁ hl
  rcases List.eq_nil_or_concat l₁ with rfl | ⟨l₁, b', rfl⟩
  · obtain ⟨rfl, hab⟩ := List.append_inj' hl rfl
    cases hab
    exact ha
  · rw [List.concat_eq_append, ← List.cons_append, ← List.append_assoc] at hl
    obtain ⟨rfl, -⟩ := List.append_inj' hl rfl
    exact h l₀ b l₁ rfl
