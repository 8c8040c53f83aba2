import Mathlib.Data.List.Basic

/-!
# Parts of a list

A list is split at a separator, and the empty parts are dropped: `parts`.  Two
lists with a separator between them have the parts of both (`parts_append_sep`),
so the parts of a concatenation are known as soon as one of the lists has a
separator at the seam.  Non-empty lists without a separator, each with one in
front, are the parts of their concatenation (`parts_flatten`).
-/

namespace Lib

variable {α : Type} [DecidableEq α] {sep : α}

/-- The stretches between the separators, the empty ones too. -/
def stretches (sep : α) : List α → List (List α)
  | [] => [[]]
  | a :: l =>
      if a = sep then [] :: stretches sep l
      else (stretches sep l).modifyHead (a :: ·)

/-- The non-empty stretches between the separators. -/
def parts (sep : α) (l : List α) : List (List α) := (stretches sep l).filter (· ≠ [])

theorem stretches_ne_nil (sep : α) (l : List α) : stretches sep l ≠ [] := by
  induction l with
  | nil => simp [stretches]
  | cons a l ih =>
    unfold stretches
    split
    next => simp
    next => simpa using ih

theorem stretches_append_sep (l₁ l₂ : List α) :
    stretches sep (l₁ ++ sep :: l₂) = stretches sep l₁ ++ stretches sep l₂ := by
  induction l₁ with
  | nil => simp [stretches]
  | cons a l₁ ih =>
    simp only [List.cons_append, stretches, ih]
    split
    next => rfl
    next =>
      obtain ⟨p, ps, hps⟩ := List.exists_cons_of_ne_nil (stretches_ne_nil sep l₁)
      simp [hps]

theorem stretches_of_not_mem {l : List α} (h : sep ∉ l) : stretches sep l = [l] := by
  induction l with
  | nil => rfl
  | cons a l ih =>
    rw [List.mem_cons, not_or] at h
    rw [stretches, if_neg (Ne.symm h.1), ih h.2]
    rfl

@[simp] theorem parts_nil : parts sep [] = [] := rfl

theorem parts_append_sep (l₁ l₂ : List α) :
    parts sep (l₁ ++ sep :: l₂) = parts sep l₁ ++ parts sep l₂ := by
  simp [parts, stretches_append_sep]

@[simp] theorem parts_cons_sep (l : List α) : parts sep (sep :: l) = parts sep l := by
  exact parts_append_sep [] l

theorem parts_of_not_mem {l : List α} (h : sep ∉ l) (hl : l ≠ []) : parts sep l = [l] := by
  simp [parts, stretches_of_not_mem h, hl]

/-- The seam of a concatenation that ends or starts with a separator. -/
theorem parts_append {l₁ l₂ : List α} (h : l₁.getLast? = some sep ∨ l₂.head? = some sep ∨ l₂ = []) :
    parts sep (l₁ ++ l₂) = parts sep l₁ ++ parts sep l₂ := by
  rcases h with h | h | rfl
  · obtain ⟨l, rfl⟩ := List.getLast?_eq_some_iff.mp h
    rw [List.append_assoc, List.singleton_append, parts_append_sep, parts_append_sep]
    simp
  · obtain ⟨l, rfl⟩ := List.head?_eq_some_iff.mp h
    rw [parts_append_sep, parts_cons_sep]
  · simp

theorem stretches_forall {l : List α} : ∀ p ∈ stretches sep l, sep ∉ p := by
  induction l with
  | nil => simp [stretches]
  | cons a l ih =>
    unfold stretches
    split
    next => simpa using ih
    next hne =>
      obtain ⟨p, ps, hps⟩ := List.exists_cons_of_ne_nil (stretches_ne_nil sep l)
      rw [hps] at ih ⊢
      intro q hq
      rcases List.mem_cons.mp hq with rfl | hq
      · simp [Ne.symm hne, ih p (by simp)]
      · exact ih q (by simp [hq])

/-- A part is not empty and has no separator. -/
theorem of_mem_parts {l p : List α} (h : p ∈ parts sep l) : p ≠ [] ∧ sep ∉ p := by
  rw [parts, List.mem_filter] at h
  exact ⟨by simpa using h.2, stretches_forall p h.1⟩

/-- Parts with a separator in front of each. -/
theorem parts_flatten {ps : List (List α)} (h : ∀ p ∈ ps, p ≠ [] ∧ sep ∉ p) :
    parts sep (ps.map (sep :: ·)).flatten = ps := by
  induction ps with
  | nil => rfl
  | cons p ps ih =>
    have hps : ∀ q ∈ ps, q ≠ [] ∧ sep ∉ q := fun q hq => h q (by simp [hq])
    have hseam : (ps.map (sep :: ·)).flatten.head? = some sep ∨
        (ps.map (sep :: ·)).flatten = [] := by
      cases ps with
      | nil => exact Or.inr rfl
      | cons q ps => exact Or.inl (by simp)
    rw [List.map_cons, List.flatten_cons, List.cons_append, parts_cons_sep,
      parts_append (Or.inr hseam), ih hps, parts_of_not_mem (h p (by simp)).2 (h p (by simp)).1,
      List.singleton_append]

end Lib
