import Mathlib.Data.List.Nodup
import Mathlib.Data.Set.Finite.Basic
import Mathlib.Logic.Function.Basic

/-!
# Parties that share a heap

A heap gives for a pointer the object it names, if that object is live.  Each of
several parties owns some pointers, and knows of each object an attribute, such as
its size.  The heap is isolated if the pointers name live objects with these
attributes and no pointer is owned twice, be it by two parties or by one.

`Transfer attr P heap own heap' own'` is what a party may do to a heap: it writes
and frees its own objects, and it allocates where nothing is live.  If `P` holds,
it also loses none of its objects: what stays live of them is still owned.  Such
changes compose.  They keep the heap isolated (`Isolated.transfer`), the objects
of the other parties stay as they are (`Isolated.unchanged`), and if no party
loses an object, every live one has an owner (`Accounted.transfer`).
-/

namespace Lib

variable {P : Prop} {ι β δ κ : Type} {attr : β → δ} {heap heap' heap'' : ι → Option β}
  {own own' own'' : List (ι × δ)}

/-- The pointers that are owned. -/
def pointers (own : List (ι × δ)) : List ι := own.map Prod.fst

@[simp] theorem pointers_nil : pointers ([] : List (ι × δ)) = [] := rfl

@[simp] theorem pointers_cons (x : ι × δ) (own : List (ι × δ)) :
    pointers (x :: own) = x.1 :: pointers own := rfl

theorem mem_pointers {p : ι} : p ∈ pointers own ↔ ∃ d, (p, d) ∈ own := by
  simp [pointers]

theorem mem_pointers_of_mem {x : ι × δ} (h : x ∈ own) : x.1 ∈ pointers own :=
  List.mem_map_of_mem h

/-- The pointers are distinct and name live objects with their attributes. -/
structure Holds (attr : β → δ) (heap : ι → Option β) (own : List (ι × δ)) : Prop where
  nodup : (pointers own).Nodup
  live : ∀ x ∈ own, ∃ b, heap x.1 = some b ∧ attr b = x.2

theorem Holds.ne_none (h : Holds attr heap own) {p : ι} (hp : p ∈ pointers own) :
    heap p ≠ none := by
  obtain ⟨d, hd⟩ := mem_pointers.mp hp
  obtain ⟨b, hb, -⟩ := h.live _ hd
  rw [hb]
  exact Option.some_ne_none b

/-- Objects that are left as they are stay held. -/
theorem Holds.congr (h : Holds attr heap own) (hsame : ∀ p ∈ pointers own, heap' p = heap p) :
    Holds attr heap' own := by
  refine ⟨h.nodup, fun x hx => ?_⟩
  rw [hsame x.1 (mem_pointers_of_mem hx)]
  exact h.live x hx

/-- A change of the heap by a party that owns `own` before and `own'` after.  It loses
no object if `P` holds. -/
structure Transfer (attr : β → δ) (P : Prop) (heap : ι → Option β) (own : List (ι × δ))
    (heap' : ι → Option β) (own' : List (ι × δ)) : Prop where
  holds : Holds attr heap own → Holds attr heap' own'
  fresh : ∀ p ∈ pointers own', p ∈ pointers own ∨ heap p = none
  frame : ∀ p, p ∉ pointers own → heap p ≠ none → heap' p = heap p
  finite : {p | heap p ≠ none}.Finite → {p | heap' p ≠ none}.Finite
  accounted : P → ∀ p, heap' p ≠ none → p ∈ pointers own' ∨ p ∉ pointers own ∧ heap p ≠ none

namespace Transfer

/-- What is live is owned, or it is not and was live. -/
theorem mem_or_live {p : ι} (h : heap p ≠ none) (own : List (ι × δ)) :
    p ∈ pointers own ∨ p ∉ pointers own ∧ heap p ≠ none := by
  by_cases hp : p ∈ pointers own
  · exact Or.inl hp
  · exact Or.inr ⟨hp, h⟩

theorem refl (heap : ι → Option β) (own : List (ι × δ)) : Transfer attr P heap own heap own :=
  ⟨id, fun _ h => Or.inl h, fun _ _ _ => rfl, id, fun _ _ hp => mem_or_live hp own⟩

theorem trans (h : Transfer attr P heap own heap' own')
    (h' : Transfer attr P heap' own' heap'' own'') : Transfer attr P heap own heap'' own'' := by
  refine ⟨h'.holds ∘ h.holds, ?_, ?_, h'.finite ∘ h.finite, ?_⟩
  · intro p hp
    rcases h'.fresh p hp with hp | hfree
    · exact h.fresh p hp
    · by_cases hown : p ∈ pointers own
      · exact Or.inl hown
      · by_cases hlive : heap p = none
        · exact Or.inr hlive
        · exact absurd ((h.frame p hown hlive).symm.trans hfree) hlive
  · intro p hown hlive
    have hsame := h.frame p hown hlive
    have hown' : p ∉ pointers own' := by
      intro hp
      rcases h.fresh p hp with hp | hfree
      · exact hown hp
      · exact hlive hfree
    exact (h'.frame p hown' (by rwa [hsame])).trans hsame
  · intro hP p hp
    rcases h'.accounted hP p hp with hp | ⟨hnot, hlive⟩
    · exact Or.inl hp
    · exact Or.inr ((h.accounted hP p hlive).resolve_left hnot)

theorem mono {Q : Prop} (hQ : Q → P) (h : Transfer attr P heap own heap' own') :
    Transfer attr Q heap own heap' own' :=
  ⟨h.holds, h.fresh, h.frame, h.finite, h.accounted ∘ hQ⟩

/-- The order of the pointers does not matter. -/
theorem perm (h : own.Perm own') : Transfer attr P heap own heap own' := by
  have hpointers : (pointers own).Perm (pointers own') := h.map _
  refine ⟨fun hholds => ⟨hpointers.nodup_iff.mp hholds.nodup, ?_⟩, ?_, fun _ _ _ => rfl, id, ?_⟩
  · exact fun x hx => hholds.live x (h.mem_iff.mpr hx)
  · exact fun p hp => Or.inl (hpointers.mem_iff.mpr hp)
  · intro _ p hp
    rw [← hpointers.mem_iff]
    exact mem_or_live hp own

/-- A pointer is forgotten, and its object stays live. -/
theorem forget (h : own'.Sublist own) (hP : ¬ P) : Transfer attr P heap own heap own' := by
  have hpointers : (pointers own').Sublist (pointers own) := h.map _
  refine ⟨fun hholds => ⟨hholds.nodup.sublist hpointers, ?_⟩, ?_, fun _ _ _ => rfl, id, ?_⟩
  · exact fun x hx => hholds.live x (h.subset hx)
  · exact fun p hp => Or.inl (hpointers.subset hp)
  · exact fun hP' => absurd hP' hP

section Update

variable [DecidableEq ι]

theorem finite_update {p : ι} {v : Option β} (h : {q | heap q ≠ none}.Finite) :
    {q | Function.update heap p v q ≠ none}.Finite := by
  refine (h.insert p).subset fun q hq => ?_
  by_cases heq : q = p
  · exact Set.mem_insert_iff.mpr (Or.inl heq)
  · rw [Set.mem_ofPred_eq, Function.update_of_ne heq] at hq
    exact Set.mem_insert_of_mem p hq

/-- An object is allocated where nothing is live. -/
theorem allocate {p : ι} (b : β) (h : heap p = none) :
    Transfer attr P heap own (Function.update heap p (some b)) ((p, attr b) :: own) := by
  refine ⟨fun hholds => ⟨?_, ?_⟩, ?_, ?_, finite_update, ?_⟩
  · exact List.nodup_cons.mpr ⟨fun hp => hholds.ne_none hp h, hholds.nodup⟩
  · intro x hx
    rcases List.mem_cons.mp hx with rfl | hx
    · exact ⟨b, Function.update_self _ _ _, rfl⟩
    · have hne : x.1 ≠ p := fun heq => hholds.ne_none (mem_pointers_of_mem hx) (heq ▸ h)
      rw [Function.update_of_ne hne]
      exact hholds.live x hx
  · intro q hq
    rcases List.mem_cons.mp hq with rfl | hq
    · exact Or.inr h
    · exact Or.inl hq
  · intro q _ hlive
    have hne : q ≠ p := fun heq => hlive (heq ▸ h)
    exact Function.update_of_ne hne _ _
  · intro _ q hq
    by_cases heq : q = p
    · exact Or.inl (heq ▸ List.mem_cons_self)
    · rw [Function.update_of_ne heq] at hq
      exact (mem_or_live hq own).imp_left (List.mem_cons_of_mem p)

/-- An own object is overwritten, but for its attribute. -/
theorem write {p : ι} {b b' : β} (h : p ∈ pointers own) (hb : heap p = some b)
    (hattr : attr b' = attr b) :
    Transfer attr P heap own (Function.update heap p (some b')) own := by
  refine ⟨fun hholds => ⟨hholds.nodup, ?_⟩, fun _ hq => Or.inl hq, ?_, finite_update, ?_⟩
  · intro x hx
    obtain ⟨c, hc, hx'⟩ := hholds.live x hx
    by_cases heq : x.1 = p
    · rw [heq, hb] at hc
      obtain rfl := Option.some.inj hc
      rw [heq, Function.update_self]
      exact ⟨b', rfl, hattr.trans hx'⟩
    · rw [Function.update_of_ne heq]
      exact ⟨c, hc, hx'⟩
  · intro q hq _
    have hne : q ≠ p := fun heq => hq (heq ▸ h)
    exact Function.update_of_ne hne _ _
  · intro _ q hq
    by_cases heq : q = p
    · exact Or.inl (heq ▸ h)
    · rw [Function.update_of_ne heq] at hq
      exact mem_or_live hq own

/-- An own object is freed. -/
theorem free (p : ι) (d : δ) (own : List (ι × δ)) :
    Transfer attr P heap ((p, d) :: own) (Function.update heap p none) own := by
  refine ⟨fun hholds => ⟨(List.nodup_cons.mp hholds.nodup).2, ?_⟩, ?_, ?_, finite_update, ?_⟩
  · intro x hx
    have hne : x.1 ≠ p := by
      rintro rfl
      have hmem : x.1 ∈ pointers own := mem_pointers_of_mem hx
      exact (List.nodup_cons.mp hholds.nodup).1 hmem
    rw [Function.update_of_ne hne]
    exact hholds.live x (List.mem_cons_of_mem _ hx)
  · exact fun q hq => Or.inl (List.mem_cons_of_mem p hq)
  · intro q hq _
    have hne : q ≠ p := fun heq => hq (heq ▸ List.mem_cons_self)
    exact Function.update_of_ne hne _ _
  · intro _ q hq
    have hne : q ≠ p := by
      rintro rfl
      exact hq (Function.update_self q none heap)
    rw [Function.update_of_ne hne] at hq
    rcases mem_or_live hq own with hmem | ⟨hnot, hlive⟩
    · exact Or.inl hmem
    · exact Or.inr ⟨fun hmem => (List.mem_cons.mp hmem).elim hne hnot, hlive⟩

end Update

end Transfer

/-- Each party holds what it owns, and no two parties own the same pointer. -/
structure Isolated (attr : β → δ) (heap : ι → Option β) (own : κ → List (ι × δ)) : Prop where
  holds : ∀ k, Holds attr heap (own k)
  disjoint : ∀ k l, k ≠ l → ∀ p ∈ pointers (own k), p ∉ pointers (own l)

namespace Isolated

variable {own : κ → List (ι × δ)} {own' : List (ι × δ)} {k : κ}

/-- What a party does leaves the objects of another party as they are. -/
theorem unchanged (h : Isolated attr heap own) (ht : Transfer attr P heap (own k) heap' own')
    {l : κ} (hne : l ≠ k) : ∀ p ∈ pointers (own l), heap' p = heap p := by
  intro p hp
  exact ht.frame p (h.disjoint l k hne p hp) ((h.holds l).ne_none hp)

theorem transfer [DecidableEq κ] (h : Isolated attr heap own)
    (ht : Transfer attr P heap (own k) heap' own') :
    Isolated attr heap' (Function.update own k own') := by
  have hother : ∀ l, l ≠ k → Function.update own k own' l = own l :=
    fun l hne => Function.update_of_ne hne _ _
  have hself : Function.update own k own' k = own' := Function.update_self _ _ _
  have hfresh : ∀ l, l ≠ k → ∀ p ∈ pointers (own l), p ∉ pointers own' := by
    intro l hne p hp hp'
    rcases ht.fresh p hp' with hk | hfree
    · exact h.disjoint l k hne p hp hk
    · exact (h.holds l).ne_none hp hfree
  constructor
  · intro l
    by_cases hne : l = k
    · rw [hne, hself]
      exact ht.holds (h.holds k)
    · rw [hother l hne]
      exact (h.holds l).congr (h.unchanged ht hne)
  · intro l m hne p hp
    by_cases hl : l = k
    · rw [hl, hself] at hp
      have hm : m ≠ k := fun heq => hne (hl.trans heq.symm)
      rw [hother m hm]
      exact fun hp' => hfresh m hm p hp' hp
    · rw [hother l hl] at hp
      by_cases hm : m = k
      · rw [hm, hself]
        exact hfresh l hl p hp
      · rw [hother m hm]
        exact h.disjoint l m hne p hp

end Isolated

/-- Every live object has an owner. -/
def Accounted (heap : ι → Option β) (own : κ → List (ι × δ)) : Prop :=
  ∀ p, heap p ≠ none → ∃ k, p ∈ pointers (own k)

theorem Accounted.transfer [DecidableEq κ] {own : κ → List (ι × δ)} {k : κ}
    (h : Accounted heap own) (ht : Transfer attr P heap (own k) heap' own') (hP : P) :
    Accounted heap' (Function.update own k own') := by
  intro p hp
  rcases ht.accounted hP p hp with hown | ⟨hnot, hlive⟩
  · exact ⟨k, by rwa [Function.update_self]⟩
  · obtain ⟨l, hl⟩ := h p hlive
    have hne : l ≠ k := fun heq => hnot (heq ▸ hl)
    exact ⟨l, by rwa [Function.update_of_ne hne]⟩

end Lib
