import Mathlib.Tactic.Common

/-!
# Chains of pointers

`next` gives for an object the object it points to, if it points to one.
`Climbs next a top` says that following the pointers from `a` ends in `top`.
`climb` follows them with a bounded number of looks.  Where pointers descend in
some rank every chain ends, and as many looks as the rank of the start and one
more are enough (`climb_of_rank`).
-/

namespace Lib

variable {α : Type} {next : α → Option α} {a top : α}

/-- Following the pointers from an object ends in `top`, which has none. -/
inductive Climbs (next : α → Option α) : α → α → Prop where
  | top {a : α} : next a = none → Climbs next a a
  | up {a b top : α} : next a = some b → Climbs next b top → Climbs next a top

namespace Climbs

theorem next_top (h : Climbs next a top) : next top = none := by
  induction h with
  | top h => exact h
  | up _ _ ih => exact ih

theorem unique (h : Climbs next a top) {top' : α} (h' : Climbs next a top') : top = top' := by
  induction h with
  | top h =>
    cases h' with
    | top _ => rfl
    | up h'' _ => cases h.symm.trans h''
  | up h _ ih =>
    cases h' with
    | top h'' => cases h''.symm.trans h
    | up h'' hclimbs =>
      obtain rfl := Option.some.inj (h.symm.trans h'')
      exact ih hclimbs

/-- What holds of an object and moves along the pointers holds of its top. -/
theorem induct {P : α → Prop} (hstep : ∀ a b, P a → next a = some b → P b) (ha : P a)
    (h : Climbs next a top) : P top := by
  induction h with
  | top _ => exact ha
  | up hsome _ ih => exact ih (hstep _ _ ha hsome)

/-- The pointers of the objects on the way are all that matters. -/
theorem congr {next' : α → Option α} {P : α → Prop} (hsame : ∀ a, P a → next' a = next a)
    (hstep : ∀ a b, P a → next a = some b → P b) (ha : P a) :
    Climbs next' a top ↔ Climbs next a top := by
  constructor
  · intro h
    induction h with
    | top hnone => exact .top (hsame _ ha ▸ hnone)
    | up hsome _ ih =>
      rw [hsame _ ha] at hsome
      exact .up hsome (ih (hstep _ _ ha hsome))
  · intro h
    induction h with
    | top hnone => exact .top (hsame _ ha ▸ hnone)
    | up hsome _ ih => exact .up (hsame _ ha ▸ hsome) (ih (hstep _ _ ha hsome))

end Climbs

/-- The top above an object, if it is found with `fuel` looks at pointers. -/
def climb (next : α → Option α) : Nat → α → Option α
  | 0, _ => none
  | fuel + 1, a =>
      match next a with
      | none => some a
      | some b => climb next fuel b

theorem climbs_of_climb {fuel : Nat} (h : climb next fuel a = some top) : Climbs next a top := by
  induction fuel generalizing a with
  | zero => cases h
  | succ fuel ih =>
    rw [climb] at h
    cases hnext : next a with
    | none =>
      rw [hnext] at h
      obtain rfl : a = top := Option.some.inj h
      exact .top hnext
    | some b =>
      rw [hnext] at h
      exact .up hnext (ih h)

/-- Where pointers descend, looking once more than the rank finds the top. -/
theorem climb_of_rank (rank : α → Nat) (hrank : ∀ a b, next a = some b → rank b < rank a)
    {fuel : Nat} (hfuel : rank a < fuel) : ∃ top, climb next fuel a = some top := by
  induction fuel generalizing a with
  | zero => omega
  | succ fuel ih =>
    rw [climb]
    cases hnext : next a with
    | none => exact ⟨a, rfl⟩
    | some b => exact ih (by have := hrank a b hnext; omega)

theorem climb_eq_some_iff (rank : α → Nat) (hrank : ∀ a b, next a = some b → rank b < rank a)
    {fuel : Nat} (hfuel : rank a < fuel) : climb next fuel a = some top ↔ Climbs next a top := by
  constructor
  · exact climbs_of_climb
  · intro h
    obtain ⟨top', hclimb⟩ := climb_of_rank rank hrank hfuel
    rw [hclimb, (climbs_of_climb hclimb).unique h]

end Lib
