import Mathlib.Data.List.Basic
import Mathlib.Data.List.Nodup

/-!
# Linked sequences

Nodes with two pointer fields, each to another node or null.  `Linked` says that
the nodes of a list are linked both ways in its order, given what stands in
front of the first and behind the last.  Two linked stretches make one
(`linked_append`).  A change elsewhere leaves a stretch linked (`Linked.congr`),
and a change at one of its ends replaces what stands there (`Linked.setAfter`,
`Linked.setBefore`).
-/

namespace Lib

variable {ν : Type}

/-- The nodes of a sequence are linked both ways, with `before` in front of the
first and `after` behind the last. -/
def Linked (next prev : ν → Option ν) (before : Option ν) : List ν → Option ν → Prop
  | [], _ => True
  | x :: l, after => prev x = before ∧ next x = l.head?.or after ∧
      Linked next prev (some x) l after

theorem linked_append {next prev : ν → Option ν} {before after : Option ν} {l₁ l₂ : List ν} :
    Linked next prev before (l₁ ++ l₂) after ↔
      Linked next prev before l₁ (l₂.head?.or after) ∧
        Linked next prev (l₁.getLast?.or before) l₂ after := by
  induction l₁ generalizing before with
  | nil => simp [Linked]
  | cons x l₁ ih =>
    have hlast : (x :: l₁).getLast?.or before = l₁.getLast?.or (some x) := by
      cases l₁ with
      | nil => rfl
      | cons y l₁ => simp [List.getLast?_eq_some_getLast]
    simp only [List.cons_append, Linked, ih, List.head?_append, Option.or_assoc, hlast]
    tauto

/-- Changes to nodes outside a sequence leave it linked. -/
theorem Linked.congr {next prev next' prev' : ν → Option ν} {before after : Option ν}
    {l : List ν} (h : Linked next prev before l after) (hnext : ∀ x ∈ l, next' x = next x)
    (hprev : ∀ x ∈ l, prev' x = prev x) : Linked next' prev' before l after := by
  induction l generalizing before with
  | nil => trivial
  | cons x l ih =>
    obtain ⟨h₁, h₂, h₃⟩ := h
    refine ⟨?_, ?_, ih h₃ (fun y hy => hnext y (by simp [hy])) fun y hy => hprev y (by simp [hy])⟩
    · rw [hprev x (by simp), h₁]
    · rw [hnext x (by simp), h₂]

/-- Changing only what the last node points to. -/
theorem Linked.setAfter [DecidableEq ν] {next prev next' prev' : ν → Option ν}
    {before after after' : Option ν} {l : List ν} (h : Linked next prev before l after)
    (hnodup : l.Nodup) (hprev : ∀ x ∈ l, prev' x = prev x)
    (hnext : ∀ x ∈ l, next' x = if l.getLast? = some x then after' else next x) :
    Linked next' prev' before l after' := by
  rcases l.eq_nil_or_concat with rfl | ⟨l, z, rfl⟩
  · trivial
  · rw [List.concat_eq_append] at *
    rw [linked_append] at h ⊢
    obtain ⟨h₁, h₂, -, -⟩ := h
    have hz : ∀ x ∈ l, z ≠ x := by
      intro x hx heq
      exact (List.nodup_append.mp hnodup).2.2 x hx z (by simp) heq.symm
    refine ⟨h₁.congr ?_ fun x hx => hprev x (by simp [hx]), ?_, ?_, trivial⟩
    · intro x hx
      rw [hnext x (by simp [hx]), if_neg (by simpa using hz x hx)]
    · rw [hprev z (by simp), h₂]
    · rw [hnext z (by simp)]
      simp

/-- Changing only what the first node points back to. -/
theorem Linked.setBefore [DecidableEq ν] {next prev next' prev' : ν → Option ν}
    {before before' after : Option ν} {l : List ν} (h : Linked next prev before l after)
    (hnodup : l.Nodup) (hnext : ∀ x ∈ l, next' x = next x)
    (hprev : ∀ x ∈ l, prev' x = if l.head? = some x then before' else prev x) :
    Linked next' prev' before' l after := by
  cases l with
  | nil => trivial
  | cons y l =>
    obtain ⟨h₁, h₂, h₃⟩ := h
    refine ⟨?_, ?_, h₃.congr (fun x hx => hnext x (by simp [hx])) ?_⟩
    · rw [hprev y (by simp)]
      simp
    · rw [hnext y (by simp), h₂]
    · intro x hx
      have hne : y ≠ x := fun heq => (List.nodup_cons.mp hnodup).1 (heq ▸ hx)
      rw [hprev x (by simp [hx]), if_neg (by simpa using hne)]

end Lib
