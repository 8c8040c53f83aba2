import Mathlib.Tactic.Common

/-!
# Results of C code

A modelled C function either returns or stops the process.  `Result α` is the
exception monad over the ways of not returning: a failed assertion, a
dereference of a null pointer, an access outside an array, a loop that does not
end, and an exception.  Sequencing is the monad's `do`.

The lemmas here are the ones a proof takes a `do` block apart with.  A block
that returned `b` has a first computation that returned some `a`, and a rest
that returned `b` from `a` (`Result.bind_eq_ok`).  A passed check gives its
condition (`Result.check_eq_ok`).
-/

namespace Lib

/-- A reason why a C function does not return to its caller. -/
inductive Fault where
  /-- An assertion failed and the process exited. -/
  | assertion
  /-- A null pointer was dereferenced. -/
  | nullDereference
  /-- An array was accessed outside its bounds. -/
  | outOfBounds
  /-- A loop ran past every bound the caller allowed for it. -/
  | divergence
  /-- An exception was raised, and control left for its handler. -/
  | exception
deriving DecidableEq, Repr

/-- The result of a C function: a value, or the reason it did not return. -/
abbrev Result (α : Type) := Except Fault α

namespace Result

variable {α β : Type}

/-- `ASSERT(p)`. -/
def check (p : Prop) [Decidable p] : Result Unit :=
  if p then .ok () else .error .assertion

/-- The target of a pointer that an assertion checks. -/
def require : Option α → Result α
  | some a => .ok a
  | none => .error .assertion

/-- The element of an array at an index. -/
def elem (base : List α) (i : Nat) : Result α :=
  match base[i]? with
  | some a => .ok a
  | none => .error .outOfBounds

/-- The target of a pointer that may be null. -/
def deref : Option α → Result α
  | some a => .ok a
  | none => .error .nullDereference

@[simp] theorem ok_bind (a : α) (f : α → Result β) : (Except.ok a >>= f) = f a := rfl

@[simp] theorem error_bind (e : Fault) (f : α → Result β) :
    ((Except.error e : Result α) >>= f) = .error e := rfl

@[simp] theorem pure_eq_ok (a : α) : (pure a : Result α) = .ok a := rfl

@[simp] theorem throw_eq_error (e : Fault) : (throw e : Result α) = .error e := rfl

/-- A sequence returned exactly when both parts did. -/
theorem bind_eq_ok {x : Result α} {f : α → Result β} {b : β} :
    (x >>= f) = .ok b ↔ ∃ a, x = .ok a ∧ f a = .ok b := by
  cases x with
  | error e => simp
  | ok a => simp

@[simp] theorem toOption_eq_some {ε : Type} {x : Except ε α} {a : α} :
    x.toOption = some a ↔ x = .ok a := by
  cases x with
  | error e => simp [Except.toOption]
  | ok b => simp [Except.toOption]

/-- A sequence failed exactly when one of its parts did. -/
theorem bind_eq_error {x : Result α} {f : α → Result β} {e : Fault} :
    (x >>= f) = .error e ↔ x = .error e ∨ ∃ a, x = .ok a ∧ f a = .error e := by
  cases x with
  | error e' => simp
  | ok a => simp

/-- Every round of a loop has a property of the state before it and of its element. -/
def EachRound (f : β → α → Result β) (P : β → α → Prop) (l : List α) (b : β) : Prop :=
  ∀ before a after b', l = before ++ a :: after → before.foldlM f b = .ok b' → P b' a

/-- The first round has the property, and the others have it in the loop that is left. -/
theorem eachRound_cons {f : β → α → Result β} {P : β → α → Prop} {a : α} {l : List α} {b : β} :
    EachRound f P (a :: l) b ↔ P b a ∧ ∀ b₁, f b a = .ok b₁ → EachRound f P l b₁ := by
  constructor
  · intro h
    refine ⟨h [] a l b rfl rfl, fun b₁ hb₁ before a' after b' hl hbefore => ?_⟩
    refine h (a :: before) a' after b' (by rw [hl]; rfl) ?_
    rw [List.foldlM_cons, hb₁]
    exact hbefore
  · rintro ⟨hfirst, hrest⟩ before a' after b' hl hbefore
    cases before with
    | nil =>
      cases hl
      cases hbefore
      exact hfirst
    | cons a₁ before =>
      cases hl
      rw [List.foldlM_cons] at hbefore
      obtain ⟨b₁, hb₁, hbefore⟩ := bind_eq_ok.mp hbefore
      exact hrest b₁ hb₁ before a' after b' rfl hbefore

/-- A loop does not fail in some way exactly when no round of it does. -/
theorem foldlM_ne_error_iff {f : β → α → Result β} {e : Fault} {l : List α} :
    ∀ {b : β}, l.foldlM f b ≠ .error e ↔ EachRound f (fun b' a => f b' a ≠ .error e) l b := by
  induction l with
  | nil =>
    intro b
    refine ⟨fun _ before a after b' hl => ?_, fun _ h => by cases h⟩
    simp at hl
  | cons a l ih =>
    intro b
    rw [List.foldlM_cons, eachRound_cons]
    constructor
    · intro h
      refine ⟨fun hfails => h (bind_eq_error.mpr (Or.inl hfails)), fun b₁ hb₁ => ?_⟩
      rw [hb₁, ok_bind] at h
      exact ih.mp h
    · rintro ⟨hfirst, hrest⟩ hfails
      rcases bind_eq_error.mp hfails with hfails | ⟨b₁, hb₁, hfails⟩
      · exact hfirst hfails
      · exact ih.mpr (hrest b₁ hb₁) hfails

@[simp] theorem check_eq_ok {p : Prop} [Decidable p] {u : Unit} :
    check p = .ok u ↔ p := by
  by_cases h : p
  · simp [check, h]
  · simp [check, h]

@[simp] theorem check_eq_error {p : Prop} [Decidable p] {e : Fault} :
    check p = .error e ↔ ¬ p ∧ e = .assertion := by
  by_cases h : p
  · simp [check, h]
  · simp [check, h, eq_comm]

theorem check_true {p : Prop} [Decidable p] (h : p) : check p = .ok () := check_eq_ok.mpr h

@[simp] theorem require_eq_ok {p : Option α} {a : α} : require p = .ok a ↔ p = some a := by
  cases p with
  | none => simp [require]
  | some b => simp [require]

@[simp] theorem elem_eq_ok {base : List α} {i : Nat} {a : α} :
    elem base i = .ok a ↔ base[i]? = some a := by
  cases h : base[i]? with
  | none => simp [elem, h]
  | some b => simp [elem, h]

theorem elem_of_lt {base : List α} {i : Nat} (h : i < base.length) :
    elem base i = .ok base[i] := by
  simp [h]

@[simp] theorem deref_eq_ok {p : Option α} {a : α} : deref p = .ok a ↔ p = some a := by
  cases p with
  | none => simp [deref]
  | some b => simp [deref]

/-! ## Code with a state -/

variable {σ : Type} {m : ExceptT Fault (StateM σ) α} {f : α → ExceptT Fault (StateM σ) β}
  {s s' : σ}

/-- A sequence goes on where its first part returned. -/
theorem stateful_bind_ok {a : α} (h : m s = (.ok a, s')) :
    (show ExceptT Fault (StateM σ) β from m >>= f) s = f a s' := by
  change ExceptT.bind m f s = _
  simp only [ExceptT.bind, ExceptT.mk, bind, StateT.bind, h]
  rfl

/-- A sequence stops where its first part stopped. -/
theorem stateful_bind_error {e : Fault} (h : m s = (.error e, s')) :
    (show ExceptT Fault (StateM σ) β from m >>= f) s = (.error e, s') := by
  change ExceptT.bind m f s = _
  simp only [ExceptT.bind, ExceptT.mk, bind, StateT.bind, h]
  rfl

end Result

end Lib
