import Hyrule.Lib.Transition

/-!
# Simulations

A system simulates another one through a view of the states.  A step is observed as a
step of the other system, or it leaves the view alone.  What is observed of a step may
depend on the state before it.

The simulation may rest on an invariant.  It then carries whole runs over
(`Simulation.run`), step by step and in order.
-/

namespace Lib.System

variable {σ ℓ τ κ : Type}

/-- The steps of `M` from states with an invariant are seen as steps of `N`. -/
structure Simulation (M : System σ ℓ) (N : System τ κ) (view : σ → τ)
    (observe : σ → ℓ → Option κ) (Inv : σ → Prop) : Prop where
  keeps : ∀ {s a s'}, Inv s → M.step s a s' → Inv s'
  observed : ∀ {s a s' k}, Inv s → M.step s a s' → observe s a = some k →
    N.step (view s) k (view s')
  silent : ∀ {s a s'}, Inv s → M.step s a s' → observe s a = none → view s' = view s

/-- What is seen of a step. -/
def Step.observed (view : σ → τ) (observe : σ → ℓ → Option κ) (step : Step σ ℓ) :
    Option (Step τ κ) :=
  (observe step.before step.label).map fun k => ⟨view step.before, k, view step.after⟩

variable {M : System σ ℓ} {N : System τ κ} {view : σ → τ} {observe : σ → ℓ → Option κ}
  {Inv : σ → Prop}

namespace Simulation

/-- A simulation from the cases of a step. -/
theorem of_cases (h : ∀ s a s', Inv s → M.step s a s' → Inv s' ∧
    (observe s a = none ∧ view s' = view s ∨
      ∃ k, observe s a = some k ∧ N.step (view s) k (view s'))) :
    M.Simulation N view observe Inv where
  keeps hs hstep := (h _ _ _ hs hstep).1
  observed hs hstep hk := by
    rcases (h _ _ _ hs hstep).2 with ⟨hnone, -⟩ | ⟨k, hsome, hstep'⟩
    · rw [hnone] at hk
      cases hk
    · rw [hsome] at hk
      cases hk
      exact hstep'
  silent hs hstep hnone := by
    rcases (h _ _ _ hs hstep).2 with ⟨-, hview⟩ | ⟨k, hsome, -⟩
    · exact hview
    · rw [hsome] at hnone
      cases hnone

/-- The invariant holds along a run. -/
theorem invariant (h : M.Simulation N view observe Inv) {s s' : σ} {steps : List (Step σ ℓ)}
    (hs : Inv s) (hrun : M.Run s steps s') : Inv s' := by
  induction hrun with
  | nil s => exact hs
  | cons hstep _ ih => exact ih (h.keeps hs hstep)

/-- What is seen of a run is a run. -/
theorem run (h : M.Simulation N view observe Inv) {s s' : σ} {steps : List (Step σ ℓ)}
    (hs : Inv s) (hrun : M.Run s steps s') :
    N.Run (view s) (steps.filterMap (Step.observed view observe)) (view s') := by
  induction hrun with
  | nil s => exact .nil _
  | @cons s₁ s₂ s₃ a steps hstep _ ih =>
    have hrest := ih (h.keeps hs hstep)
    cases hobserve : observe s₁ a with
    | none =>
      rw [List.filterMap_cons_none (by simp [Step.observed, hobserve]),
        ← h.silent hs hstep hobserve]
      exact hrest
    | some k =>
      rw [List.filterMap_cons_some (b := ⟨view s₁, k, view s₂⟩)
        (by simp [Step.observed, hobserve])]
      exact .cons (h.observed hs hstep hobserve) hrest

end Simulation

end Lib.System
