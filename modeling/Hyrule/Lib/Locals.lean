import Hyrule.Lib.Result
import Mathlib.Logic.Function.Basic

/-!
# Code on local arrays

C code on several arrays with fixed sizes and some further state.  Every access is
logged with its index.  An access outside an array stops the code, and the log is kept.

`Spec` is a triple for such code, with a condition for the case that the code stops.
It also says that the code accesses the arrays inside their bounds, so that a proof
of a triple is a proof of that (`Spec.read`, `Spec.write`).  `Refines` compares the
code with a function that does not use the arrays.
-/

namespace Lib

/-- The cells of the arrays, and what the code changes besides. -/
structure Locals {ι : Type} (size : ι → Nat) (cell : ι → Type) (σ : Type) where
  cells : (a : ι) → Fin (size a) → cell a
  rest : σ

/-- The arrays with the accesses to them. -/
structure Logged {ι : Type} (size : ι → Nat) (cell : ι → Type) (σ : Type) extends
    Locals size cell σ where
  accessed : List (ι × Nat)

/-- Code on local arrays. -/
abbrev LocalsM {ι : Type} (size : ι → Nat) (cell : ι → Type) (σ : Type) :=
  ExceptT Fault (StateM (Logged size cell σ))

variable {ι : Type} {size : ι → Nat} {cell : ι → Type} {σ β γ : Type}

/-- The arrays were accessed inside their bounds alone. -/
def Logged.Inside (s : Logged size cell σ) : Prop := ∀ x ∈ s.accessed, x.2 < size x.1

theorem Logged.inside_nil (l : Locals size cell σ) :
    Logged.Inside (⟨l, []⟩ : Logged size cell σ) := by
  intro x hx
  cases hx

/-- One more access. -/
def Logged.access (s : Logged size cell σ) (a : ι) (i : Nat) : Logged size cell σ :=
  { s with accessed := s.accessed ++ [(a, i)] }

theorem Logged.Inside.access {s : Logged size cell σ} (h : s.Inside) {a : ι} {i : Nat}
    (hi : i < size a) : (s.access a i).Inside := by
  intro x hx
  rcases List.mem_append.mp hx with hx | hx
  · exact h x hx
  · rw [List.mem_singleton.mp hx]
    exact hi

/-- A cell is set. -/
def Locals.set [DecidableEq ι] (l : Locals size cell σ) (a : ι) (i : Fin (size a)) (x : cell a) :
    Locals size cell σ :=
  { l with cells := Function.update l.cells a (Function.update (l.cells a) i x) }

section Set

variable [DecidableEq ι] {l : Locals size cell σ} {a : ι} {i : Fin (size a)} {x : cell a}

@[simp] theorem Locals.set_rest : (l.set a i x).rest = l.rest := rfl

theorem Locals.set_cells_self (j : Fin (size a)) :
    (l.set a i x).cells a j = if j = i then x else l.cells a j := by
  have hcells : (l.set a i x).cells a = Function.update (l.cells a) i x :=
    Function.update_self _ _ _
  rw [hcells, Function.update_apply]

theorem Locals.set_cells_of_ne {b : ι} (h : b ≠ a) : (l.set a i x).cells b = l.cells b :=
  Function.update_of_ne h _ _

end Set

namespace LocalsM

/-- What the code returns, and the state behind it. -/
def outcome (m : LocalsM size cell σ β) (s : Logged size cell σ) : Result β × Logged size cell σ :=
  m s

/-- Code that uses neither the arrays nor the rest. -/
def lift (r : Result β) : LocalsM size cell σ β := fun s => (r, s)

/-- Code on the rest. -/
def onRest (f : σ → Result β × σ) : LocalsM size cell σ β := fun s =>
  ((f s.rest).1, { s with rest := (f s.rest).2 })

/-- `a[i]`. -/
def read (a : ι) (i : Nat) : LocalsM size cell σ (cell a) := fun s =>
  (if h : i < size a then .ok (s.cells a ⟨i, h⟩) else .error .outOfBounds, s.access a i)

/-- `a[i] = x`. -/
def write [DecidableEq ι] (a : ι) (i : Nat) (x : cell a) : LocalsM size cell σ Unit := fun s =>
  if h : i < size a then (.ok (), { s.access a i with toLocals := s.set a ⟨i, h⟩ x })
  else (.error .outOfBounds, s.access a i)

variable {m : LocalsM size cell σ β} {f : β → LocalsM size cell σ γ} {s s' : Logged size cell σ}

theorem outcome_bind_ok {b : β} (h : m.outcome s = (.ok b, s')) :
    outcome (m >>= f) s = (f b).outcome s' :=
  Result.stateful_bind_ok h

theorem outcome_bind_error {e : Fault} (h : m.outcome s = (.error e, s')) :
    outcome (m >>= f) s = (.error e, s') :=
  Result.stateful_bind_error h

theorem outcome_write_outside [DecidableEq ι] (a : ι) {i : Nat} (h : size a ≤ i) (x : cell a) :
    outcome (write a i x) s = (.error .outOfBounds, s.access a i) := by
  simp [outcome, write, Nat.not_lt.mpr h]

/-- Code with a postcondition for each way to end, that stays inside the arrays. -/
def Spec (P : Locals size cell σ → Prop) (m : LocalsM size cell σ β)
    (Q : β → Locals size cell σ → Prop) (E : Fault → Locals size cell σ → Prop) : Prop :=
  ∀ s, s.Inside → P s.toLocals →
    (m.outcome s).2.Inside ∧
    (∀ b, (m.outcome s).1 = .ok b → Q b (m.outcome s).2.toLocals) ∧
    ∀ e, (m.outcome s).1 = .error e → E e (m.outcome s).2.toLocals

namespace Spec

variable {P P' : Locals size cell σ → Prop} {Q Q' : β → Locals size cell σ → Prop}
  {R : γ → Locals size cell σ → Prop} {E E' : Fault → Locals size cell σ → Prop}

theorem mono (h : Spec P' m Q' E') (hP : ∀ l, P l → P' l) (hQ : ∀ b l, Q' b l → Q b l)
    (hE : ∀ e l, E' e l → E e l) : Spec P m Q E := by
  intro s hs hp
  obtain ⟨hinside, hok, herror⟩ := h s hs (hP _ hp)
  exact ⟨hinside, fun b hb => hQ b _ (hok b hb), fun e he => hE e _ (herror e he)⟩

theorem pre (h : Spec P' m Q E) (hP : ∀ l, P l → P' l) : Spec P m Q E :=
  h.mono hP (fun _ _ hb => hb) fun _ _ he => he

theorem post (h : Spec P m Q' E) (hQ : ∀ b l, Q' b l → Q b l) : Spec P m Q E :=
  h.mono (fun _ hl => hl) hQ fun _ _ he => he

/-- Code that never stops meets any condition for the case that it does. -/
theorem never (h : Spec P m Q fun _ _ => False) : Spec P m Q E :=
  h.mono (fun _ hl => hl) (fun _ _ hb => hb) fun _ _ he => he.elim

theorem pure {b : β} : Spec (Q b) (Pure.pure b : LocalsM size cell σ β) Q E := by
  intro s hs hp
  refine ⟨hs, ?_, ?_⟩
  · rintro b' ⟨⟩
    exact hp
  · rintro e ⟨⟩

theorem lift {r : Result β} :
    Spec (fun l => (∀ b, r = .ok b → Q b l) ∧ ∀ e, r = .error e → E e l)
      (LocalsM.lift r : LocalsM size cell σ β) Q E :=
  fun _ hs hp => ⟨hs, hp.1, hp.2⟩

theorem onRest {f : σ → Result β × σ} :
    Spec (fun l => (∀ b, (f l.rest).1 = .ok b → Q b ⟨l.cells, (f l.rest).2⟩) ∧
        ∀ e, (f l.rest).1 = .error e → E e ⟨l.cells, (f l.rest).2⟩)
      (LocalsM.onRest f : LocalsM size cell σ β) Q E :=
  fun _ hs hp => ⟨hs, hp.1, hp.2⟩

theorem read (a : ι) {i : Nat} {Q : cell a → Locals size cell σ → Prop} (h : i < size a) :
    Spec (fun l => Q (l.cells a ⟨i, h⟩) l) (LocalsM.read a i : LocalsM size cell σ (cell a)) Q
      E := by
  intro s hs hp
  have houtcome : outcome (LocalsM.read a i) s = (.ok (s.cells a ⟨i, h⟩), s.access a i) := by
    simp [outcome, LocalsM.read, h]
  rw [houtcome]
  refine ⟨hs.access h, ?_, ?_⟩
  · rintro x ⟨⟩
    exact hp
  · rintro e ⟨⟩

theorem write [DecidableEq ι] (a : ι) {i : Nat} {x : cell a}
    {Q : Unit → Locals size cell σ → Prop} (h : i < size a) :
    Spec (fun l => Q () (l.set a ⟨i, h⟩ x))
      (LocalsM.write a i x : LocalsM size cell σ Unit) Q E := by
  intro s hs hp
  have houtcome : outcome (LocalsM.write a i x) s =
      (.ok (), { s.access a i with toLocals := s.set a ⟨i, h⟩ x }) := by
    simp [outcome, LocalsM.write, h]
  rw [houtcome]
  refine ⟨hs.access h, ?_, ?_⟩
  · rintro u ⟨⟩
    exact hp
  · rintro e ⟨⟩

theorem bind (h : Spec P m Q E) (hf : ∀ b, Spec (Q b) (f b) R E) : Spec P (m >>= f) R E := by
  intro s hs hp
  obtain ⟨hinside, hok, herror⟩ := h s hs hp
  rcases houtcome : m.outcome s with ⟨e | b, s'⟩
  · rw [houtcome] at hinside herror
    rw [outcome_bind_error houtcome]
    refine ⟨hinside, ?_, ?_⟩
    · rintro b ⟨⟩
    · rintro e' ⟨⟩
      exact herror e rfl
  · rw [houtcome] at hinside hok
    rw [outcome_bind_ok houtcome]
    exact hf b s' hinside (hok b rfl)

/-- Code that does not stop returns. -/
theorem returns (h : Spec P m Q fun _ _ => False) (hs : s.Inside) (hp : P s.toLocals) :
    ∃ b s', m.outcome s = (.ok b, s') ∧ s'.Inside ∧ Q b s'.toLocals := by
  obtain ⟨hinside, hok, herror⟩ := h s hs hp
  rcases houtcome : m.outcome s with ⟨e | b, s'⟩
  · rw [houtcome] at herror
    exact (herror e rfl).elim
  · rw [houtcome] at hinside hok
    exact ⟨b, s', rfl, hinside, hok b rfl⟩

/-- The state before the code may be fixed. -/
theorem of_forall (h : ∀ l₀, P l₀ → Spec (fun l => l = l₀) m Q E) : Spec P m Q E :=
  fun s hs hp => h s.toLocals hp s hs rfl

/-- A condition that does not depend on the state. -/
theorem of_imp {φ : Prop} (h : φ → Spec P m Q E) : Spec (fun l => φ ∧ P l) m Q E :=
  fun s hs hp => h hp.1 s hs hp.2

end Spec

/-- The code returns what a function without the arrays returns. -/
def Refines (P : Locals size cell σ → Prop) (m : LocalsM size cell σ β) (r : Result β)
    (Q : β → Locals size cell σ → Prop) (E : Locals size cell σ → Prop) : Prop :=
  Spec P m (fun b l => r = .ok b ∧ Q b l) fun e l => r = .error e ∧ E l

namespace Refines

variable {P : Locals size cell σ → Prop} {r : Result β} {g : β → Result γ}
  {Q : β → Locals size cell σ → Prop} {R : γ → Locals size cell σ → Prop}
  {E E' : Locals size cell σ → Prop}

theorem error (h : Refines P m r Q E') (hE : ∀ l, E' l → E l) : Refines P m r Q E :=
  Spec.mono h (fun _ hl => hl) (fun _ _ hb => hb) fun _ l he => ⟨he.1, hE l he.2⟩

theorem of_forall (h : ∀ l₀, P l₀ → Refines (fun l => l = l₀) m r Q E) : Refines P m r Q E :=
  Spec.of_forall h

theorem pure {b : β} (hP : ∀ l, P l → Q b l) :
    Refines P (Pure.pure b : LocalsM size cell σ β) (.ok b) Q E :=
  Spec.pre Spec.pure fun l hl => ⟨rfl, hP l hl⟩

theorem lift (hP : ∀ l, P l → E l) :
    Refines P (LocalsM.lift r : LocalsM size cell σ β) r (fun _ => P) E :=
  Spec.pre Spec.lift fun l hl => ⟨fun _ hb => ⟨hb, hl⟩, fun _ he => ⟨he, hP l hl⟩⟩

theorem bind (h : Refines P m r Q E) (hf : ∀ b, r = .ok b → Refines (Q b) (f b) (g b) R E) :
    Refines P (m >>= f) (r >>= g) R E := by
  refine Spec.bind (Spec.mono h (fun _ hl => hl) (fun _ _ hb => hb) ?_) fun b => ?_
  · rintro e l ⟨he, hl⟩
    exact ⟨by rw [he]; rfl, hl⟩
  · refine Spec.of_imp fun hb => ?_
    rw [hb]
    exact hf b hb

end Refines

end LocalsM

end Lib
