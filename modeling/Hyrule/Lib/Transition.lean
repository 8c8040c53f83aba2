import Mathlib.Tactic.Common

/-!
# Transition systems

A system has initial states and labelled steps.  `Reachable` collects the states
of its finite runs.  `restrict` keeps only the steps that meet a condition on
the state before the step and the label, so a statement about
`(M.restrict C).Reachable` is a statement about the runs whose steps all meet
`C`.  `startAt` has the runs that go on from a state.  `Run` keeps the steps of a
run, for statements about each of them.
-/

namespace Lib

/-- A labelled transition system. -/
structure System (σ ℓ : Type) where
  /-- The initial states. -/
  init : σ → Prop
  /-- `step s a s'`: the label `a` can take `s` to `s'`. -/
  step : σ → ℓ → σ → Prop

namespace System

variable {σ ℓ : Type} {M : System σ ℓ}

/-- The states of the finite runs. -/
inductive Reachable (M : System σ ℓ) : σ → Prop where
  | init {s : σ} : M.init s → Reachable M s
  | step {s s' : σ} {a : ℓ} : Reachable M s → M.step s a s' → Reachable M s'

/-- The system whose steps meet `C` in the state before them. -/
def restrict (M : System σ ℓ) (C : σ → ℓ → Prop) : System σ ℓ where
  init := M.init
  step s a s' := C s a ∧ M.step s a s'

/-- A property of the initial states that every step keeps holds in every
reachable state. -/
theorem Reachable.invariant {P : σ → Prop} (hinit : ∀ s, M.init s → P s)
    (hstep : ∀ s a s', P s → M.step s a s' → P s') {s : σ} (h : M.Reachable s) : P s := by
  induction h with
  | init hs => exact hinit _ hs
  | step _ hs ih => exact hstep _ _ _ ih hs

/-- A run of the restricted system is a run. -/
theorem Reachable.of_restrict {C : σ → ℓ → Prop} {s : σ}
    (h : (M.restrict C).Reachable s) : M.Reachable s := by
  induction h with
  | init hs => exact .init hs
  | step _ hs ih => exact .step ih hs.2

/-- The system that starts in a given state. -/
def startAt (M : System σ ℓ) (s : σ) : System σ ℓ where
  init := (· = s)
  step := M.step

/-- What is reached from a reachable state is reachable. -/
theorem Reachable.of_startAt {s s' : σ} (h : M.Reachable s) (h' : (M.startAt s).Reachable s') :
    M.Reachable s' := by
  induction h' with
  | init hs => exact hs ▸ h
  | step _ hs ih => exact .step ih hs

/-- A step of a run: a label, and the states around it. -/
structure Step (σ ℓ : Type) where
  before : σ
  label : ℓ
  after : σ

/-- The runs from a state to a state, as the lists of their steps. -/
inductive Run (M : System σ ℓ) : σ → List (Step σ ℓ) → σ → Prop where
  | nil (s : σ) : Run M s [] s
  | cons {s s' s'' : σ} {a : ℓ} {steps : List (Step σ ℓ)} :
      M.step s a s' → Run M s' steps s'' → Run M s (⟨s, a, s'⟩ :: steps) s''

/-- A run leads to reachable states. -/
theorem Reachable.of_run {s s' : σ} {steps : List (Step σ ℓ)} (h : M.Reachable s)
    (hrun : M.Run s steps s') : M.Reachable s' := by
  induction hrun with
  | nil s => exact h
  | cons hstep _ ih => exact ih (h.step hstep)

/-- The steps of a run are steps of the system, from reachable states. -/
theorem Run.mem {s s' : σ} {steps : List (Step σ ℓ)} (hrun : M.Run s steps s')
    (h : M.Reachable s) {x : Step σ ℓ} (hx : x ∈ steps) :
    M.Reachable x.before ∧ M.step x.before x.label x.after := by
  induction hrun with
  | nil s => cases hx
  | cons hstep _ ih =>
    rcases List.mem_cons.mp hx with rfl | hx
    · exact ⟨h, hstep⟩
    · exact ih (h.step hstep) hx

/-- A run whose steps meet a condition is a run of the restricted system. -/
theorem Run.restrict {C : σ → ℓ → Prop} {s s' : σ} {steps : List (Step σ ℓ)}
    (hrun : M.Run s steps s') (h : ∀ x ∈ steps, C x.before x.label) :
    (M.restrict C).Run s steps s' := by
  induction hrun with
  | nil s => exact .nil s
  | cons hstep _ ih =>
    obtain ⟨hfirst, hrest⟩ := List.forall_mem_cons.mp h
    exact .cons ⟨hfirst, hstep⟩ (ih hrest)

/-- Following a list of labels through a function that makes steps reaches a
reachable state. -/
theorem Reachable.foldlM {f : σ → ℓ → Option σ} (hf : ∀ s a s', f s a = some s' → M.step s a s')
    {labels : List ℓ} {s s' : σ} (h : M.Reachable s) (hrun : labels.foldlM f s = some s') :
    M.Reachable s' := by
  induction labels generalizing s with
  | nil => exact Option.some.inj hrun ▸ h
  | cons a labels ih =>
    rw [List.foldlM_cons, Option.bind_eq_bind, Option.bind_eq_some_iff] at hrun
    obtain ⟨s₁, hs₁, hrun⟩ := hrun
    exact ih (h.step (hf s a s₁ hs₁)) hrun

end System

end Lib
