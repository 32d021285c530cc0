import Mathlib.Data.List.Induction

/-!
# Executions of a labelled step function

A component is modelled as a **partial step function** `step : ι → σ → Option σ`: a label names who
moves and resolves every choice the environment has, and `none` says that the move is not enabled.
An execution is then a list of labels, and a statement about *every interleaving* is a statement
about every list of labels that `runLabels` carries through.

Everything a component proves about whole executions goes through one rule,
`runLabels_induction`: an invariant may mention the labels executed so far as well as the state
they lead to.
-/

variable {ι σ : Type*} (step : ι → σ → Option σ)

/-- Execute a list of labels, stopping at the first one that is not enabled. -/
def runLabels : List ι → σ → Option σ
  | [], s => some s
  | l :: ls, s => (step l s).bind (runLabels ls)

@[simp] theorem runLabels_nil (s : σ) : runLabels step [] s = some s := rfl

theorem runLabels_cons (l : ι) (ls : List ι) (s : σ) :
    runLabels step (l :: ls) s = (step l s).bind (runLabels step ls) := rfl

theorem runLabels_append (ls ms : List ι) (s : σ) :
    runLabels step (ls ++ ms) s = (runLabels step ls s).bind (runLabels step ms) := by
  induction ls generalizing s with
  | nil => rfl
  | cons l ls ih =>
    rw [List.cons_append, runLabels_cons, runLabels_cons, Option.bind_assoc]
    exact congrArg _ (funext ih)

/-- One more label at the end of an execution is one more step. -/
theorem runLabels_concat_eq_some {ls : List ι} {l : ι} {s s' : σ} :
    runLabels step (ls ++ [l]) s = some s' ↔
      ∃ u, runLabels step ls s = some u ∧ step l u = some s' := by
  rw [runLabels_append, Option.bind_eq_some_iff]
  refine exists_congr fun u ↦ and_congr_right fun _ ↦ ?_
  rw [runLabels_cons]
  cases step l u <;> simp

variable {step}

theorem runLabels_append_some {ls ms : List ι} {s u v : σ} (h : runLabels step ls s = some u)
    (h' : runLabels step ms u = some v) : runLabels step (ls ++ ms) s = some v := by
  rw [runLabels_append, h, Option.bind_some, h']

/-- **The induction rule for executions.** What holds of the empty execution and is kept by one
more step holds of every execution together with the state it reaches. -/
theorem runLabels_induction {s₀ : σ} {I : List ι → σ → Prop} (hinit : I [] s₀)
    (hstep : ∀ ls l s s', runLabels step ls s₀ = some s → I ls s → step l s = some s' →
      I (ls ++ [l]) s') :
    ∀ {ls : List ι} {s : σ}, runLabels step ls s₀ = some s → I ls s := by
  intro ls
  induction ls using List.reverseRecOn with
  | nil =>
    intro s hs
    rw [runLabels_nil, Option.some.injEq] at hs
    exact hs ▸ hinit
  | append_singleton ls l ih =>
    intro s' hs'
    obtain ⟨s, hs, hl⟩ := (runLabels_concat_eq_some step).1 hs'
    exact hstep ls l s s' hs (ih hs) hl

/-- The rule for an invariant of the state alone. -/
theorem runLabels_invariant {s₀ : σ} {I : σ → Prop} (hinit : I s₀)
    (hstep : ∀ l s s', I s → step l s = some s' → I s') {ls : List ι} {s : σ}
    (h : runLabels step ls s₀ = some s) : I s :=
  runLabels_induction (I := fun _ s ↦ I s) hinit (fun _ l s s' _ hs hl ↦ hstep l s s' hs hl) h

/-- **Concrete executions by evaluation.** It is enough to evaluate what a finite observation sees of
the state an execution reaches; the state itself is never written down. -/
theorem exists_run_of_observe {β : Type*} {ls : List ι} {s₀ : σ} {P : σ → Prop} (obs : σ → β)
    (b : β) (h : (runLabels step ls s₀).map obs = some b)
    (hP : ∀ s, runLabels step ls s₀ = some s → obs s = b → P s) :
    ∃ s, runLabels step ls s₀ = some s ∧ P s := by
  obtain ⟨s, hs, hobs⟩ := Option.map_eq_some_iff.1 h
  exact ⟨s, hs, hP s hs hobs⟩

/-! ### Conditions on steps -/

/-- The steps that meet a condition in the state they are taken in. The executions of this step
function are the executions of `step` **whose steps all meet the condition**. -/
def guardStep (P : ι → σ → Prop) [∀ l s, Decidable (P l s)] (step : ι → σ → Option σ) (l : ι) (s : σ) :
    Option σ :=
  if P l s then step l s else none

theorem guardStep_eq_some {P : ι → σ → Prop} [∀ l s, Decidable (P l s)] {l : ι} {s s' : σ} :
    guardStep P step l s = some s' ↔ P l s ∧ step l s = some s' := by
  rw [guardStep]
  split_ifs with h <;> simp [h]

/-- The condition can be forgotten. -/
theorem runLabels_of_guardStep {P : ι → σ → Prop} [∀ l s, Decidable (P l s)] {ls : List ι} {s s' : σ}
    (h : runLabels (guardStep P step) ls s = some s') : runLabels step ls s = some s' := by
  induction ls generalizing s with
  | nil => exact h
  | cons l ls ih =>
    obtain ⟨u, hu, h⟩ := Option.bind_eq_some_iff.1 h
    rw [runLabels_cons, (guardStep_eq_some.1 hu).2, Option.bind_some]
    exact ih h

/-! ### Refinement -/

/-- A run of an abstract system, whose steps are a relation. -/
inductive RelRun {α : Type*} (R : ι → α → α → Prop) (a : α) : List ι → α → Prop
  | nil : RelRun R a [] a
  | concat {ls : List ι} {l : ι} {b c : α} : RelRun R a ls b → R l b c → RelRun R a (ls ++ [l]) c

/-- **Refinement by an abstraction function.** If an invariant is kept and every step is a step of
the abstract system, then every execution is a run of it. -/
theorem runLabels_refines {α : Type*} {s₀ : σ} {I : σ → Prop} {R : ι → α → α → Prop} (f : σ → α)
    (hinit : I s₀) (hstep : ∀ l s s', I s → step l s = some s' → I s')
    (hsim : ∀ l s s', I s → step l s = some s' → R l (f s) (f s')) {ls : List ι} {s : σ}
    (h : runLabels step ls s₀ = some s) : RelRun R (f s₀) ls (f s) := by
  refine (runLabels_induction (I := fun ls s ↦ I s ∧ RelRun R (f s₀) ls (f s)) ⟨hinit, .nil⟩ ?_ h).2
  rintro ls l s s' - ⟨hs, hrun⟩ hl
  exact ⟨hstep l s s' hs hl, hrun.concat (hsim l s s' hs hl)⟩
