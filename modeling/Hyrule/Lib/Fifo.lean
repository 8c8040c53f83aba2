import Mathlib.Tactic.Common

/-!
# Waiting lines

Members of a line are served one at a time.  A step lets newcomers join behind the
others, and then serves the first in the line or nobody (`Fifo.Step`).  Whoever waits
is not overtaken: behind `n` services the line is the old one without its first `n`
members, with the newcomers behind (`Fifo.Run.waiting_eq`), and the member at position
`k` is served by the service number `k + 1` (`Fifo.Run.served_eq`).
-/

namespace Lib

/-- The members that wait, and the one that was served last. -/
structure Fifo (α : Type) where
  waiting : List α
  served : Option α

namespace Fifo

variable {α : Type} {q q' : Fifo α}

/-- A step, which is a service or not. -/
inductive Step : Fifo α → Bool → Fifo α → Prop where
  | join (q : Fifo α) (l : List α) : Step q false ⟨q.waiting ++ l, q.served⟩
  | serve (q : Fifo α) (l : List α) :
      Step q true ⟨(q.waiting ++ l).tail, (q.waiting ++ l).head?⟩

/-- Steps, with whether each is a service. -/
inductive Run : Fifo α → List Bool → Fifo α → Prop where
  | nil (q : Fifo α) : Run q [] q
  | cons {q q' q'' : Fifo α} {service : Bool} {services : List Bool} :
      Step q service q' → Run q' services q'' → Run q (service :: services) q''

/-- The line behind a run. -/
theorem Run.waiting_eq {services : List Bool} (h : Run q services q')
    (hle : services.count true ≤ q.waiting.length) :
    ∃ l, q'.waiting = q.waiting.drop (services.count true) ++ l := by
  induction h with
  | nil q => exact ⟨[], by simp⟩
  | cons hstep _ ih =>
    cases hstep with
    | join l =>
      rw [List.count_cons_of_ne (by decide)] at hle ⊢
      obtain ⟨l', hl'⟩ := ih (by rw [List.length_append]; omega)
      exact ⟨l ++ l', by rw [hl', List.drop_append_of_le_length hle, List.append_assoc]⟩
    | serve l =>
      rw [List.count_cons_self] at hle ⊢
      obtain ⟨l', hl'⟩ := ih (by rw [List.length_tail, List.length_append]; omega)
      refine ⟨l ++ l', ?_⟩
      rw [hl', List.drop_tail, List.drop_append_of_le_length hle, List.append_assoc]

/-- A run can be cut. -/
theorem Run.append {services services' : List Bool} (h : Run q (services ++ services') q') :
    ∃ q₁, Run q services q₁ ∧ Run q₁ services' q' := by
  induction services generalizing q with
  | nil => exact ⟨q, .nil q, h⟩
  | cons service services ih =>
    cases h with
    | cons hstep hrest =>
      obtain ⟨q₁, h₁, h₂⟩ := ih hrest
      exact ⟨q₁, .cons hstep h₁, h₂⟩

/-- The member at a position waits until its turn. -/
theorem Run.waiting_getElem? {services : List Bool} (h : Run q services q') {k : Nat} {a : α}
    (hk : q.waiting[k]? = some a) (hle : services.count true ≤ k) :
    q'.waiting[k - services.count true]? = some a := by
  have hlt : k < q.waiting.length := (List.getElem?_eq_some_iff.mp hk).1
  obtain ⟨l, hl⟩ := h.waiting_eq (by omega)
  rw [hl, List.getElem?_append_left (by rw [List.length_drop]; omega), List.getElem?_drop,
    Nat.add_sub_cancel' hle]
  exact hk

/-- At its turn it is served. -/
theorem Run.served_eq {services : List Bool} (h : Run q (services ++ [true]) q') {a : α}
    (hk : q.waiting[services.count true]? = some a) : q'.served = some a := by
  obtain ⟨q₁, hrun, hlast⟩ := h.append
  have hfirst := hrun.waiting_getElem? hk (Nat.le_refl _)
  rw [Nat.sub_self] at hfirst
  cases hlast with
  | cons hstep hnil =>
    cases hnil
    cases hstep with
    | serve l =>
      have hlt := (List.getElem?_eq_some_iff.mp hfirst).1
      show (q₁.waiting ++ l).head? = some a
      rw [List.head?_eq_getElem?, List.getElem?_append_left hlt, hfirst]

end Fifo

end Lib
