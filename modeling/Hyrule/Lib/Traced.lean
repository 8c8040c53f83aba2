import Hyrule.Lib.Result
import Mathlib.Logic.Function.Basic

/-!
# Code on an array

C code on an array of `n` cells, with the indices at which it accesses the array.
An access outside the array stops the code, and what was accessed before is kept.

`Within` says that the code stays inside the array, and has a rule for every way
to build code.  `Refines` compares the code with a function that passes the cells
around and does not say what it accesses.
-/

namespace Lib

/-- The cells of an array, with the indices at which it was accessed. -/
structure Traced (n : Nat) (α : Type) where
  cells : Fin n → α
  accessed : List Nat

/-- The array was accessed inside its bounds alone. -/
def Traced.Inside {n : Nat} {α : Type} (a : Traced n α) : Prop := ∀ i ∈ a.accessed, i < n

/-- Code on an array. -/
abbrev TracedM (n : Nat) (α : Type) := ExceptT Fault (StateM (Traced n α))

namespace TracedM

variable {n : Nat} {α β γ : Type}

/-- What the code returns, and the array behind it. -/
def outcome (m : TracedM n α β) (a : Traced n α) : Result β × Traced n α := m a

/-- Code that does not use the array. -/
def lift (r : Result β) : TracedM n α β := fun a => (r, a)

/-- `a[i]`. -/
def read (i : Nat) : TracedM n α α := fun a =>
  (if h : i < n then .ok (a.cells ⟨i, h⟩) else .error .outOfBounds,
    ⟨a.cells, a.accessed ++ [i]⟩)

/-- `a[i] = x`. -/
def write (i : Nat) (x : α) : TracedM n α Unit := fun a =>
  if h : i < n then (.ok (), ⟨Function.update a.cells ⟨i, h⟩ x, a.accessed ++ [i]⟩)
  else (.error .outOfBounds, ⟨a.cells, a.accessed ++ [i]⟩)

variable {m : TracedM n α β} {f : β → TracedM n α γ} {a a' : Traced n α}

@[simp] theorem outcome_pure (b : β) : outcome (pure b : TracedM n α β) a = (.ok b, a) := rfl

@[simp] theorem outcome_lift (r : Result β) : outcome (lift r : TracedM n α β) a = (r, a) := rfl

theorem outcome_read (i : Fin n) :
    outcome (read i : TracedM n α α) a = (.ok (a.cells i), ⟨a.cells, a.accessed ++ [i.val]⟩) := by
  simp [outcome, read]

theorem outcome_write (i : Fin n) (x : α) :
    outcome (write i x) a =
      (.ok (), ⟨Function.update a.cells i x, a.accessed ++ [i.val]⟩) := by
  simp [outcome, write]

/-- An access outside the array. -/
theorem outcome_read_outside {i : Nat} (h : n ≤ i) :
    outcome (read i : TracedM n α α) a =
      (.error .outOfBounds, ⟨a.cells, a.accessed ++ [i]⟩) := by
  simp [outcome, read, Nat.not_lt.mpr h]

theorem outcome_write_outside {i : Nat} (h : n ≤ i) (x : α) :
    outcome (write i x : TracedM n α Unit) a =
      (.error .outOfBounds, ⟨a.cells, a.accessed ++ [i]⟩) := by
  simp [outcome, write, Nat.not_lt.mpr h]

theorem outcome_bind_ok {b : β} (h : m.outcome a = (.ok b, a')) :
    outcome (m >>= f) a = (f b).outcome a' :=
  Result.stateful_bind_ok h

theorem outcome_bind_error {e : Fault} (h : m.outcome a = (.error e, a')) :
    outcome (m >>= f) a = (.error e, a') :=
  Result.stateful_bind_error h

/-! ## Code that stays inside the array -/

/-- The code accesses the array inside its bounds alone. -/
def Within (m : TracedM n α β) : Prop := ∀ a, a.Inside → (m.outcome a).2.Inside

namespace Within

theorem pure (b : β) : Within (Pure.pure b : TracedM n α β) := fun _ ha => ha

theorem lift (r : Result β) : Within (TracedM.lift r : TracedM n α β) := fun _ ha => ha

/-- One more access inside the array. -/
theorem access {i : Nat} (h : i < n) {cells : Fin n → α} (ha : a.Inside) :
    Traced.Inside (⟨cells, a.accessed ++ [i]⟩ : Traced n α) := by
  intro j hj
  rcases List.mem_append.mp hj with hj | hj
  · exact ha j hj
  · rw [List.mem_singleton.mp hj]
    exact h

theorem read {i : Nat} (h : i < n) : Within (TracedM.read i : TracedM n α α) := by
  intro a ha
  rw [outcome_read ⟨i, h⟩]
  exact access h ha

theorem write {i : Nat} (h : i < n) (x : α) : Within (TracedM.write i x : TracedM n α Unit) := by
  intro a ha
  rw [outcome_write ⟨i, h⟩]
  exact access h ha

theorem bind (h : Within m) (hf : ∀ b, Within (f b)) : Within (m >>= f) := by
  intro a ha
  have hm := h a ha
  rcases houtcome : m.outcome a with ⟨_ | b, a'⟩
  · rw [outcome_bind_error houtcome]
    rwa [houtcome] at hm
  · rw [outcome_bind_ok houtcome]
    rw [houtcome] at hm
    exact hf b a' hm

end Within

/-! ## Code without its accesses -/

/-- What the code returns with the cells behind it. -/
def erase (outcome : Result β × Traced n α) : Result (β × (Fin n → α)) :=
  outcome.1.map fun b => (b, outcome.2.cells)

/-- The code does to the cells what a function does. -/
def Refines (m : TracedM n α β) (g : (Fin n → α) → Result (β × (Fin n → α))) : Prop :=
  ∀ a, erase (m.outcome a) = g a.cells

namespace Refines

variable {g g' : (Fin n → α) → Result (β × (Fin n → α))}

theorem congr (h : Refines m g) (heq : ∀ cells, g cells = g' cells) : Refines m g' :=
  fun a => (h a).trans (heq a.cells)

theorem pure (b : β) : Refines (Pure.pure b : TracedM n α β) fun cells => .ok (b, cells) :=
  fun _ => rfl

theorem bind {k : β → (Fin n → α) → Result (γ × (Fin n → α))} (h : Refines m g)
    (hf : ∀ b, Refines (f b) (k b)) :
    Refines (m >>= f) fun cells => g cells >>= fun r => k r.1 r.2 := by
  intro a
  change _ = g a.cells >>= _
  have hm := h a
  rcases houtcome : m.outcome a with ⟨e | b, a'⟩
  · rw [outcome_bind_error houtcome]
    rw [houtcome] at hm
    rw [← hm]
    rfl
  · rw [outcome_bind_ok houtcome]
    rw [houtcome] at hm
    rw [← hm]
    exact hf b a'

theorem write_bind {f : Unit → TracedM n α γ} {k : (Fin n → α) → Result (γ × (Fin n → α))}
    (i : Fin n) (x : α) (hf : ∀ u, Refines (f u) k) :
    Refines (TracedM.write i x >>= f) fun cells => k (Function.update cells i x) := by
  intro a
  rw [outcome_bind_ok (outcome_write i x)]
  exact hf _ _

end Refines

/-! ## Code on the list of the cells -/

/-- The code returns, and leaves the cells that a function on the list of them returns. -/
def Leaves (m : TracedM n α Unit) (g : List α → Result (List α)) : Prop :=
  ∀ a, ∃ a', m.outcome a = (.ok (), a') ∧ g (List.ofFn a.cells) = .ok (List.ofFn a'.cells)

/-- The code returns what a function on the list of the cells returns, and leaves the cells as
they are. -/
def Finds (m : TracedM n α β) (g : List α → Result β) : Prop :=
  ∀ a, ∃ b a', m.outcome a = (.ok b, a') ∧ a'.cells = a.cells ∧ g (List.ofFn a.cells) = .ok b

theorem elem_ofFn (cells : Fin n → α) (i : Fin n) :
    Result.elem (List.ofFn cells) i = .ok (cells i) := by
  rw [Result.elem_of_lt (by simp), List.getElem_ofFn]

theorem set_ofFn (cells : Fin n → α) (i : Fin n) (x : α) :
    (List.ofFn cells).set i x = List.ofFn (Function.update cells i x) := by
  apply List.ext_getElem
  · simp
  · intro j h₁ h₂
    rw [List.getElem_set, List.getElem_ofFn, List.getElem_ofFn, Function.update_apply]
    simp only [Fin.ext_iff]
    by_cases hj : i.val = j
    · rw [if_pos hj, if_pos hj.symm]
    · rw [if_neg hj, if_neg (Ne.symm hj)]

end TracedM

end Lib
