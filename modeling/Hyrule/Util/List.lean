import Hyrule.Lib.Linked
import Hyrule.Lib.Result
import Mathlib.Logic.Function.Basic

/-!
# Linked lists

`list.c`: doubly linked lists whose nodes are embedded in the elements.  A
`ListHeap` has the fields of every head and every node of one kind.  The head's
`next` is the first element and its `prev` the last.

The loops over a list follow the `next` fields and would not end on a cycle.
They are given a bound: the number of nodes that were ever put into a list.

`ListHeap.Represents` says that the heads stand for sequences without repeated
elements, and that no element is in two of them.  Under it every function
returns, and does to the sequence of its head what its name says.
-/

namespace Hyrule

open Lib Lib.Result

variable {η ν : Type}

/-! ## Heads and nodes -/

/-- The heads `η` and the nodes `ν` of the lists of one kind. -/
structure ListHeap (η ν : Type) where
  /-- `head->next`. -/
  headNext : η → Option ν
  /-- `head->prev`. -/
  headPrev : η → Option ν
  next : ν → Option ν
  prev : ν → Option ν
  /-- The number of nodes that were ever put into a list. -/
  appended : Nat

namespace ListHeap

/-- Heads and nodes after `list_init`. -/
def empty : ListHeap η ν := ⟨fun _ => none, fun _ => none, fun _ => none, fun _ => none, 0⟩

/-- `list_init` of a head. -/
def initHead [DecidableEq η] (h : ListHeap η ν) (head : η) : ListHeap η ν :=
  { h with
    headNext := Function.update h.headNext head none
    headPrev := Function.update h.headPrev head none }

/-- `list_init` of a node. -/
def initNode [DecidableEq ν] (h : ListHeap η ν) (elem : ν) : ListHeap η ν :=
  { h with
    next := Function.update h.next elem none
    prev := Function.update h.prev elem none }

end ListHeap

/-- `LIST_FOREACH_START` to `LIST_FOREACH_END`.  The next node is read before the
body runs.  The body may break off. -/
def listForeach {σ : Type} (next : σ → ν → Option ν) (body : ν → σ → Result (σ × Bool)) :
    Nat → Option ν → σ → Result σ
  | _, none, s => return s
  | 0, some _, _ => throw .divergence
  | fuel + 1, some elem, s => do
      let after := next s elem
      let (s, stop) ← body elem s
      if stop then return s else listForeach next body fuel after s

/-- The loop `while ((list = list_fetch(head)))`.  The body may break off. -/
def whileFetch {σ : Type} (fetch : σ → Result (Option ν × σ)) (body : ν → σ → Result (σ × Bool)) :
    Nat → σ → Result σ
  | 0, _ => throw .divergence
  | fuel + 1, s => do
      let (elem, s) ← fetch s
      match elem with
      | none => return s
      | some elem =>
          let (s, stop) ← body elem s
          if stop then return s else whileFetch fetch body fuel s

/-- The loop that looks for an element. -/
def listFind [DecidableEq ν] (h : ListHeap η ν) (head : η) (elem : ν) : Result Bool :=
  listForeach (fun _ e => h.next e) (fun e _ => return (decide (e = elem), decide (e = elem)))
    h.appended (h.headNext head) false

/-! ## The functions -/

section

variable [DecidableEq η] [DecidableEq ν]

/-- `p->field = value`, if `p` is not null. -/
def storeField (field : ν → Option ν) (p value : Option ν) : ν → Option ν :=
  fun x => if p = some x then value else field x

omit [DecidableEq η] in
theorem storeField_apply (field : ν → Option ν) (p value : Option ν) (x : ν) :
    storeField field p value x = if p = some x then value else field x := rfl

/-- `list_append`. -/
def listAppend (h : ListHeap η ν) (head : η) (elem : ν) : Result (ListHeap η ν) := do
  check (h.prev elem = none)
  check (h.next elem = none)
  return {
    headNext := if h.headNext head = none then Function.update h.headNext head (some elem)
      else h.headNext
    headPrev := Function.update h.headPrev head (some elem)
    next := storeField h.next (h.headPrev head) (some elem)
    prev := if h.headPrev head = none then h.prev
      else storeField h.prev (some elem) (h.headPrev head)
    appended := h.appended + 1 }

/-- `list_fetch`. -/
def listFetch (h : ListHeap η ν) (head : η) : Result (Option ν × ListHeap η ν) :=
  match h.headNext head with
  | none => return (none, h)
  | some elem => do
      check (h.headPrev head ≠ none)
      let prev := storeField h.prev (h.next elem) none
      check (prev elem = none)
      return (some elem, { h with
        headNext := Function.update h.headNext head (h.next elem)
        headPrev := if h.next elem = none then Function.update h.headPrev head none
          else h.headPrev
        next := storeField h.next (some elem) none
        prev })

/-- `list_delete`. -/
def listDelete (h : ListHeap η ν) (head : η) (elem : ν) : Result (ListHeap η ν) := do
  check ((← listFind h head elem) = true)
  check (h.headPrev head = some elem → h.next elem = none)
  check (h.headNext head = some elem → h.prev elem = none)
  let prev := storeField h.prev (h.next elem) (h.prev elem)
  let next := storeField h.next (prev elem) (h.next elem)
  return { h with
    headNext := if h.headNext head = some elem then
      Function.update h.headNext head (h.next elem) else h.headNext
    headPrev := if h.headPrev head = some elem then
      Function.update h.headPrev head (h.prev elem) else h.headPrev
    next := storeField next (some elem) none
    prev := storeField prev (some elem) none }

/-- `element_in_list`. -/
def elementInList (h : ListHeap η ν) (head : η) (elem : ν) : Result Bool :=
  if h.next elem = none ∧ h.prev elem = none ∧ h.headNext head ≠ some elem ∧
      h.headPrev head ≠ some elem then return false
  else listFind h head elem

end

/-! ## The sequences that heads stand for -/

/-- Sequences without repeated nodes, no two of which share a node. -/
structure Separate (seq : η → List ν) : Prop where
  nodup : ∀ a, (seq a).Nodup
  apart : ∀ a b x, x ∈ seq a → x ∈ seq b → a = b

/-- Every head stands for a sequence, and the sequences are separate. -/
structure ListHeap.Lists (h : ListHeap η ν) (seq : η → List ν) : Prop extends Separate seq where
  linked : ∀ a, Linked h.next h.prev none (seq a) none
  first : ∀ a, h.headNext a = (seq a).head?
  last : ∀ a, h.headPrev a = (seq a).getLast?

/-- At most one head and the nodes of a list differ. -/
structure ListHeap.Local (h h' : ListHeap η ν) (a : η) (l : List ν) : Prop where
  headNext : ∀ b, b ≠ a → h'.headNext b = h.headNext b
  headPrev : ∀ b, b ≠ a → h'.headPrev b = h.headPrev b
  next : ∀ y, y ∉ l → h'.next y = h.next y
  prev : ∀ y, y ∉ l → h'.prev y = h.prev y

/-- Every head stands for a sequence, the sequences are separate, and the nodes in
none of them are detached. -/
structure ListHeap.Represents (h : ListHeap η ν) (seq : η → List ν) : Prop extends
    Separate seq where
  linked : ∀ a, Linked h.next h.prev none (seq a) none
  first : ∀ a, h.headNext a = (seq a).head?
  last : ∀ a, h.headPrev a = (seq a).getLast?
  detached : ∀ x, (∀ a, x ∉ seq a) → h.next x = none ∧ h.prev x = none
  bound : ∀ a, (seq a).length ≤ h.appended

theorem Separate.sublist {seq seq' : η → List ν} (h : Separate seq)
    (hsub : ∀ a, (seq' a).Sublist (seq a)) : Separate seq' where
  nodup a := (h.nodup a).sublist (hsub a)
  apart a b x ha hb := h.apart a b x ((hsub a).subset ha) ((hsub b).subset hb)

theorem Separate.erase_mem [DecidableEq ν] {seq : η → List ν} (h : Separate seq) {a : η} {x : ν}
    (hx : x ∈ seq a) : ∃ l₁ l₂, seq a = l₁ ++ x :: l₂ ∧ (seq a).erase x = l₁ ++ l₂ := by
  obtain ⟨l₁, l₂, hseq⟩ := List.append_of_mem hx
  have hnodup := h.nodup a
  rw [hseq, List.nodup_middle, List.nodup_cons, List.mem_append, not_or] at hnodup
  refine ⟨l₁, l₂, hseq, ?_⟩
  rw [hseq, List.erase_append_right _ hnodup.1.1, List.erase_cons_head]

theorem Separate.insert [DecidableEq η] {seq : η → List ν} (h : Separate seq) {a : η} {x : ν}
    {l₁ l₂ : List ν} (hseq : seq a = l₁ ++ l₂) (hx : ∀ b, x ∉ seq b) :
    Separate (Function.update seq a (l₁ ++ x :: l₂)) := by
  have hmem : ∀ b y, y ∈ Function.update seq a (l₁ ++ x :: l₂) b → y ∈ seq b ∨ y = x ∧ b = a := by
    intro b y hy
    by_cases hb : b = a
    · subst hb
      rw [Function.update_self, List.mem_append, List.mem_cons] at hy
      rw [hseq, List.mem_append]
      tauto
    · rw [Function.update_of_ne hb] at hy
      exact Or.inl hy
  constructor
  · intro b
    by_cases hb : b = a
    · subst hb
      rw [Function.update_self, List.nodup_middle]
      exact List.nodup_cons.mpr ⟨hseq ▸ hx b, hseq ▸ h.nodup b⟩
    · rw [Function.update_of_ne hb]
      exact h.nodup b
  · intro b c y hyb hyc
    rcases hmem b y hyb with hyb | ⟨rfl, rfl⟩
    · rcases hmem c y hyc with hyc | ⟨hyx, -⟩
      · exact h.apart b c y hyb hyc
      · exact absurd (hyx ▸ hyb) (hx b)
    · rcases hmem c y hyc with hyc | ⟨-, rfl⟩
      · exact absurd hyc (hx c)
      · rfl

theorem ListHeap.represents_empty : (ListHeap.empty : ListHeap η ν).Represents fun _ => [] where
  nodup _ := List.nodup_nil
  apart _ _ _ h := by cases h
  linked _ := trivial
  first _ := rfl
  last _ := rfl
  detached _ _ := ⟨rfl, rfl⟩
  bound _ := Nat.le_refl _

/-- The nodes from a node on, following the `next` fields. -/
def ListHeap.walk (h : ListHeap η ν) : Nat → Option ν → List ν
  | fuel + 1, some x => x :: h.walk fuel (h.next x)
  | _, _ => []

/-- The nodes of the list of a head. -/
def ListHeap.toList (h : ListHeap η ν) (head : η) : List ν :=
  h.walk h.appended (h.headNext head)

theorem walk_of_linked {h : ListHeap η ν} {before : Option ν} {l : List ν}
    (hl : Linked h.next h.prev before l none) {fuel : Nat} (hfuel : l.length ≤ fuel) :
    h.walk fuel l.head? = l := by
  induction l generalizing before fuel with
  | nil => cases fuel <;> rfl
  | cons x l ih =>
    obtain ⟨fuel, rfl⟩ : ∃ k, fuel = k + 1 := ⟨fuel - 1, by simp at hfuel; omega⟩
    obtain ⟨-, hnext, hrest⟩ := hl
    rw [Option.or_none] at hnext
    rw [List.head?_cons, ListHeap.walk, hnext, ih hrest (by simpa using hfuel)]

/-- The sequences that the heads stand for are the ones that are read off them. -/
theorem ListHeap.Represents.toList {h : ListHeap η ν} {seq : η → List ν} (hr : h.Represents seq)
    (a : η) : h.toList a = seq a := by
  rw [ListHeap.toList, hr.first]
  exact walk_of_linked (hr.linked a) (hr.bound a)

/-- The rule for a loop over a sequence whose body leaves the rest of the sequence
as it was.  `inv l s` holds when the nodes `l` are still to come. -/
theorem listForeach_spec {σ : Type} {next : σ → ν → Option ν} {body : ν → σ → Result (σ × Bool)}
    (inv : List ν → σ → Prop) {post : σ → Prop} (hdone : ∀ s, inv [] s → post s)
    (hbody : ∀ x l s, inv (x :: l) s → next s x = l.head? ∧
      ∃ s' stop, body x s = .ok (s', stop) ∧ if stop then post s' else inv l s')
    {l : List ν} {fuel : Nat} (hfuel : l.length ≤ fuel) {s : σ} (h : inv l s) :
    ∃ s', listForeach next body fuel l.head? s = .ok s' ∧ post s' := by
  induction l generalizing fuel s with
  | nil =>
    refine ⟨s, ?_, hdone s h⟩
    cases fuel <;> rfl
  | cons x l ih =>
    obtain ⟨hnext, s', stop, hrun, hs'⟩ := hbody x l s h
    obtain ⟨fuel, rfl⟩ : ∃ k, fuel = k + 1 := ⟨fuel - 1, by simp at hfuel; omega⟩
    simp only [List.head?_cons, listForeach, hrun, ok_bind, hnext]
    cases stop with
    | true => exact ⟨s', rfl, hs'⟩
    | false => exact ih (by simpa using hfuel) hs'

/-- The rule for a loop that fetches the nodes of a sequence. -/
theorem whileFetch_spec {σ : Type} {fetch : σ → Result (Option ν × σ)}
    {body : ν → σ → Result (σ × Bool)} (inv : List ν → σ → Prop) {post : σ → Prop}
    (hdone : ∀ s, inv [] s → ∃ s', fetch s = .ok (none, s') ∧ post s')
    (hbody : ∀ x l s, inv (x :: l) s → ∃ s₁, fetch s = .ok (some x, s₁) ∧
      ∃ s' stop, body x s₁ = .ok (s', stop) ∧ if stop then post s' else inv l s')
    {l : List ν} {fuel : Nat} (hfuel : l.length < fuel) {s : σ} (h : inv l s) :
    ∃ s', whileFetch fetch body fuel s = .ok s' ∧ post s' := by
  induction l generalizing fuel s with
  | nil =>
    obtain ⟨fuel, rfl⟩ : ∃ k, fuel = k + 1 := ⟨fuel - 1, by simp at hfuel; omega⟩
    obtain ⟨s', hfetch, hpost⟩ := hdone s h
    exact ⟨s', by simp only [whileFetch, hfetch, ok_bind, pure_eq_ok], hpost⟩
  | cons x l ih =>
    obtain ⟨fuel, rfl⟩ : ∃ k, fuel = k + 1 := ⟨fuel - 1, by simp at hfuel; omega⟩
    obtain ⟨s₁, hfetch, s', stop, hrun, hs'⟩ := hbody x l s h
    simp only [whileFetch, hfetch, ok_bind, hrun]
    cases stop with
    | true => exact ⟨s', rfl, hs'⟩
    | false => exact ih (by simp at hfuel; omega) hs'

namespace ListHeap.Lists

variable {h : ListHeap η ν} {seq : η → List ν}

theorem next_eq (hlists : h.Lists seq) {a : η} {x : ν} {l₁ l₂ : List ν}
    (hseq : seq a = l₁ ++ x :: l₂) : h.next x = l₂.head? ∧ h.prev x = l₁.getLast? := by
  have hlinked := hlists.linked a
  rw [hseq, linked_append] at hlinked
  obtain ⟨-, hprev, hnext, -⟩ := hlinked
  exact ⟨by simpa using hnext, by simpa using hprev⟩

/-- A search that is given enough rounds answers whether the node is in the sequence. -/
theorem find [DecidableEq ν] (hlists : h.Lists seq) {a : η} (hbound : (seq a).length ≤ h.appended)
    (x : ν) : listFind h a x = .ok (decide (x ∈ seq a)) := by
  have hspec : ∃ found, listForeach (fun _ e => h.next e)
      (fun e _ => return (decide (e = x), decide (e = x))) h.appended (seq a).head? false =
        .ok found ∧ found = decide (x ∈ seq a) := by
    refine listForeach_spec (fun l found => found = false ∧ ∃ l₀, seq a = l₀ ++ l ∧ x ∉ l₀)
      ?_ ?_ hbound ⟨rfl, [], rfl, by simp⟩
    · rintro found ⟨rfl, l₀, hseq, hx⟩
      simp [hseq, hx]
    · rintro y l found ⟨rfl, l₀, hseq, hx⟩
      refine ⟨(hlists.next_eq hseq).1, _, _, rfl, ?_⟩
      by_cases hy : y = x
      · simp [hy, hseq]
      · rw [decide_eq_false hy, if_neg Bool.false_ne_true]
        exact ⟨rfl, l₀ ++ [y], by simp [hseq], by simp [hx, Ne.symm hy]⟩
  obtain ⟨found, hrun, rfl⟩ := hspec
  rw [listFind, hlists.first]
  exact hrun

/-- `element_in_list` is exact. -/
theorem elementInList [DecidableEq ν] (hlists : h.Lists seq) {a : η}
    (hbound : (seq a).length ≤ h.appended) (x : ν) :
    Hyrule.elementInList h a x = .ok (decide (x ∈ seq a)) := by
  unfold Hyrule.elementInList
  split
  next hfast =>
    obtain ⟨hnext, hprev, hfirst, hlast⟩ := hfast
    have hx : x ∉ seq a := by
      intro hx
      obtain ⟨l₁, l₂, hseq⟩ := List.append_of_mem hx
      obtain ⟨hnext', hprev'⟩ := hlists.next_eq hseq
      rw [hnext', List.head?_eq_none_iff] at hnext
      rw [hprev', List.getLast?_eq_none_iff] at hprev
      rw [hlists.first, hseq, hnext, hprev] at hfirst
      exact hfirst rfl
    simp [hx]
  next => exact hlists.find hbound x

/-- Linking a node into a sequence. -/
theorem insert [DecidableEq η] [DecidableEq ν] (hlists : h.Lists seq) {a : η} {x : ν}
    {l₁ l₂ : List ν} (hseq : seq a = l₁ ++ l₂) (hx : ∀ b, x ∉ seq b) {h' : ListHeap η ν}
    (hfirst : h'.headNext = Function.update h.headNext a (l₁.head?.or (some x)))
    (hlast : h'.headPrev = Function.update h.headPrev a (l₂.getLast?.or (some x)))
    (hnext : ∀ y, h'.next y = if l₁.getLast? = some y then some x else
      if y = x then l₂.head? else h.next y)
    (hprev : ∀ y, h'.prev y = if l₂.head? = some y then some x else
      if y = x then l₁.getLast? else h.prev y) :
    h'.Lists (Function.update seq a (l₁ ++ x :: l₂)) ∧ h.Local h' a (x :: seq a) := by
  have hx₁ : x ∉ l₁ := fun hmem => hx a (by simp [hseq, hmem])
  have hx₂ : x ∉ l₂ := fun hmem => hx a (by simp [hseq, hmem])
  have hnodup := hlists.nodup a
  rw [hseq] at hnodup
  obtain ⟨hnodup₁, hnodup₂, hdisj⟩ := List.nodup_append.mp hnodup
  have hlinked := hlists.linked a
  rw [hseq, linked_append] at hlinked
  have hout : ∀ y, y ∉ x :: seq a → h'.next y = h.next y ∧ h'.prev y = h.prev y := by
    intro y hy
    rw [hseq, List.mem_cons, List.mem_append, not_or, not_or] at hy
    rw [hnext, hprev, if_neg fun hl => hy.2.1 (List.mem_of_getLast? hl), if_neg hy.1,
      if_neg fun hl => hy.2.2 (List.mem_of_head? hl), if_neg hy.1]
    exact ⟨rfl, rfl⟩
  refine ⟨{ toSeparate := hlists.toSeparate.insert hseq hx, linked := ?_, first := ?_, last := ?_ },
    { headNext := ?_, headPrev := ?_, next := fun y hy => (hout y hy).1,
      prev := fun y hy => (hout y hy).2 }⟩
  · intro b
    by_cases hb : b = a
    · subst hb
      rw [Function.update_self, linked_append]
      refine ⟨hlinked.1.setAfter hnodup₁ ?_ ?_, ?_, ?_, hlinked.2.setBefore hnodup₂ ?_ ?_⟩
      · intro y hy
        have hyx : y ≠ x := fun heq => hx₁ (heq ▸ hy)
        rw [hprev, if_neg fun hl => hdisj y hy y (List.mem_of_head? hl) rfl, if_neg hyx]
      · intro y hy
        have hyx : y ≠ x := fun heq => hx₁ (heq ▸ hy)
        rw [hnext, if_neg hyx]
        rfl
      · rw [hprev, if_neg fun hl => hx₂ (List.mem_of_head? hl), if_pos rfl, Option.or_none]
      · rw [hnext, if_neg fun hl => hx₁ (List.mem_of_getLast? hl), if_pos rfl, Option.or_none]
      · intro y hy
        have hyx : y ≠ x := fun heq => hx₂ (heq ▸ hy)
        rw [hnext, if_neg fun hl => hdisj y (List.mem_of_getLast? hl) y hy rfl, if_neg hyx]
      · intro y hy
        have hyx : y ≠ x := fun heq => hx₂ (heq ▸ hy)
        rw [hprev, if_neg hyx]
    · have hother : ∀ y ∈ seq b, y ∉ x :: seq a := by
        intro y hy hya
        rcases List.mem_cons.mp hya with rfl | hya
        · exact hx b hy
        · exact hb (hlists.apart b a y hy hya)
      rw [Function.update_of_ne hb]
      exact (hlists.linked b).congr (fun y hy => (hout y (hother y hy)).1) fun y hy =>
        (hout y (hother y hy)).2
  · intro b
    rw [hfirst]
    by_cases hb : b = a
    · subst hb
      simp [List.head?_append]
    · rw [Function.update_of_ne hb, Function.update_of_ne hb, hlists.first]
  · intro b
    rw [hlast]
    by_cases hb : b = a
    · subst hb
      simp [List.getLast?_append, List.getLast?_cons, Option.or_some]
    · rw [Function.update_of_ne hb, Function.update_of_ne hb, hlists.last]
  · intro b hb
    rw [hfirst, Function.update_of_ne hb]
  · intro b hb
    rw [hlast, Function.update_of_ne hb]

/-- Unlinking a node from a sequence. -/
theorem remove [DecidableEq η] [DecidableEq ν] (hlists : h.Lists seq) {a : η} {x : ν}
    {l₁ l₂ : List ν} (hseq : seq a = l₁ ++ x :: l₂) {h' : ListHeap η ν}
    (hfirst : h'.headNext = Function.update h.headNext a (l₁ ++ l₂).head?)
    (hlast : h'.headPrev = Function.update h.headPrev a (l₁ ++ l₂).getLast?)
    (hnext : ∀ y, h'.next y = if y = x then none else
      if l₁.getLast? = some y then l₂.head? else h.next y)
    (hprev : ∀ y, h'.prev y = if y = x then none else
      if l₂.head? = some y then l₁.getLast? else h.prev y) :
    h'.Lists (Function.update seq a (l₁ ++ l₂)) ∧ h.Local h' a (seq a) ∧
      h'.next x = none ∧ h'.prev x = none := by
  have hnodup := hlists.nodup a
  rw [hseq, List.nodup_middle] at hnodup
  obtain ⟨hx, hnodup⟩ := List.nodup_cons.mp hnodup
  rw [List.mem_append, not_or] at hx
  obtain ⟨hnodup₁, hnodup₂, hdisj⟩ := List.nodup_append.mp hnodup
  have hlinked := hlists.linked a
  rw [hseq, linked_append] at hlinked
  obtain ⟨hlinked₁, -, -, hlinked₂⟩ := hlinked
  have hsub : ∀ b, (Function.update seq a (l₁ ++ l₂) b).Sublist (seq b) := by
    intro b
    by_cases hb : b = a
    · subst hb
      rw [Function.update_self, hseq]
      exact List.Sublist.append_left (List.sublist_cons_self x l₂) l₁
    · rw [Function.update_of_ne hb]
  have hout : ∀ y, y ∉ seq a → h'.next y = h.next y ∧ h'.prev y = h.prev y := by
    intro y hy
    rw [hseq, List.mem_append, List.mem_cons, not_or, not_or] at hy
    rw [hnext, hprev, if_neg hy.2.1, if_neg hy.2.1, if_neg fun hl => hy.1 (List.mem_of_getLast? hl),
      if_neg fun hl => hy.2.2 (List.mem_of_head? hl)]
    exact ⟨rfl, rfl⟩
  refine ⟨{ toSeparate := hlists.toSeparate.sublist hsub, linked := ?_, first := ?_, last := ?_ },
    { headNext := ?_, headPrev := ?_, next := fun y hy => (hout y hy).1,
      prev := fun y hy => (hout y hy).2 }, ?_, ?_⟩
  · intro b
    by_cases hb : b = a
    · subst hb
      rw [Function.update_self, linked_append]
      refine ⟨hlinked₁.setAfter hnodup₁ ?_ ?_, hlinked₂.setBefore hnodup₂ ?_ ?_⟩
      · intro y hy
        have hyx : y ≠ x := fun heq => hx.1 (heq ▸ hy)
        rw [hprev, if_neg hyx, if_neg fun hl => hdisj y hy y (List.mem_of_head? hl) rfl]
      · intro y hy
        have hyx : y ≠ x := fun heq => hx.1 (heq ▸ hy)
        rw [hnext, if_neg hyx, Option.or_none]
      · intro y hy
        have hyx : y ≠ x := fun heq => hx.2 (heq ▸ hy)
        rw [hnext, if_neg hyx, if_neg fun hl => hdisj y (List.mem_of_getLast? hl) y hy rfl]
      · intro y hy
        have hyx : y ≠ x := fun heq => hx.2 (heq ▸ hy)
        rw [hprev, if_neg hyx, Option.or_none]
    · rw [Function.update_of_ne hb]
      have hya : ∀ y ∈ seq b, y ∉ seq a := fun y hy hya => hb (hlists.apart b a y hy hya)
      exact (hlists.linked b).congr (fun y hy => (hout y (hya y hy)).1) fun y hy =>
        (hout y (hya y hy)).2
  · intro b
    rw [hfirst]
    by_cases hb : b = a
    · subst hb
      simp
    · rw [Function.update_of_ne hb, Function.update_of_ne hb, hlists.first]
  · intro b
    rw [hlast]
    by_cases hb : b = a
    · subst hb
      simp
    · rw [Function.update_of_ne hb, Function.update_of_ne hb, hlists.last]
  · intro b hb
    rw [hfirst, Function.update_of_ne hb]
  · intro b hb
    rw [hlast, Function.update_of_ne hb]
  · rw [hnext, if_pos rfl]
  · rw [hprev, if_pos rfl]

/-! ### What the functions do -/

section

variable [DecidableEq η] [DecidableEq ν]

/-- `list_append` puts a detached node at the end. -/
theorem append (hlists : h.Lists seq) (a : η) {x : ν} (hx : ∀ b, x ∉ seq b)
    (hnext : h.next x = none) (hprev : h.prev x = none) :
    ∃ h', listAppend h a x = .ok h' ∧ h'.appended = h.appended + 1 ∧
      h'.Lists (Function.update seq a (seq a ++ [x])) ∧ h.Local h' a (x :: seq a) := by
  have hlastNe : (seq a).getLast? ≠ some x := fun hl => hx a (List.mem_of_getLast? hl)
  have hseq : seq a = seq a ++ [] := (List.append_nil _).symm
  unfold listAppend
  rw [check_true hprev, check_true hnext, ok_bind, ok_bind, pure_eq_ok]
  refine ⟨_, rfl, rfl, hlists.insert hseq hx ?_ ?_ ?_ ?_⟩
  · rw [hlists.first]
    cases hseq : seq a with
    | nil => simp
    | cons y l =>
      have hhead : h.headNext a = some y := by rw [hlists.first, hseq]; rfl
      rw [List.head?_cons, if_neg (by simp), Option.some_or, ← hhead, Function.update_eq_self]
  · simp
  · intro y
    simp only [storeField_apply, hlists.last]
    by_cases hy : y = x
    · simp [hy, hlastNe, hnext]
    · simp [hy]
  · intro y
    simp only [hlists.last]
    by_cases hy : y = x
    · subst hy
      cases (seq a).getLast? <;> simp [hprev, storeField_apply]
    · cases (seq a).getLast? <;> simp [hy, Ne.symm hy, storeField_apply]

/-- `list_fetch` of an empty list. -/
theorem fetch_nil (hlists : h.Lists seq) {a : η} (hseq : seq a = []) :
    listFetch h a = .ok (none, h) := by
  rw [listFetch, hlists.first, hseq]
  rfl

/-- `list_fetch` takes the first node. -/
theorem fetch_cons (hlists : h.Lists seq) {a : η} {x : ν} {l : List ν} (hseq : seq a = x :: l) :
    ∃ h', listFetch h a = .ok (some x, h') ∧ h'.appended = h.appended ∧
      h'.Lists (Function.update seq a l) ∧ h.Local h' a (seq a) ∧
      h'.next x = none ∧ h'.prev x = none := by
  have hseq' : seq a = [] ++ x :: l := hseq
  obtain ⟨hnext, hprev⟩ := hlists.next_eq hseq'
  have hx : x ∉ l := by
    have := hlists.nodup a
    rw [hseq] at this
    exact (List.nodup_cons.mp this).1
  have hheadNe : l.head? ≠ some x := fun hl => hx (List.mem_of_head? hl)
  have hlastNe : h.headPrev a ≠ none := by
    rw [hlists.last, hseq]
    simp
  have hcheck : storeField h.prev (h.next x) none x = none := by
    rw [storeField_apply, hnext, if_neg hheadNe, hprev]
    rfl
  refine ⟨{ h with
      headNext := Function.update h.headNext a (h.next x)
      headPrev := if h.next x = none then Function.update h.headPrev a none else h.headPrev
      next := storeField h.next (some x) none
      prev := storeField h.prev (h.next x) none }, ?_, rfl, hlists.remove hseq' ?_ ?_ ?_ ?_⟩
  · simp only [listFetch, hlists.first, hseq, List.head?_cons, check_true hlastNe,
      check_true hcheck, ok_bind, pure_eq_ok]
  · simp [hnext]
  · simp only [hnext, List.nil_append]
    cases hl : l with
    | nil => simp
    | cons y l' =>
      have hlast : h.headPrev a = (y :: l').getLast? := by
        rw [hlists.last, hseq, hl, List.getLast?_cons_cons]
      simp [← hlast]
  · intro y
    simp [storeField_apply, eq_comm]
  · intro y
    simp only [storeField_apply, hnext]
    by_cases hy : y = x
    · simp [hy, hheadNe, hprev]
    · simp [hy]

/-- `list_delete` takes a node of the list out. -/
theorem delete (hlists : h.Lists seq) {a : η} (hbound : (seq a).length ≤ h.appended) {x : ν}
    {l₁ l₂ : List ν} (hseq : seq a = l₁ ++ x :: l₂) :
    ∃ h', listDelete h a x = .ok h' ∧ h'.appended = h.appended ∧
      h'.Lists (Function.update seq a (l₁ ++ l₂)) ∧ h.Local h' a (seq a) ∧
      h'.next x = none ∧ h'.prev x = none := by
  obtain ⟨hnext, hprev⟩ := hlists.next_eq hseq
  have hnodup := hlists.nodup a
  rw [hseq, List.nodup_middle] at hnodup
  have hx := (List.nodup_cons.mp hnodup).1
  rw [List.mem_append, not_or] at hx
  have hheadNe : l₂.head? ≠ some x := fun hl => hx.2 (List.mem_of_head? hl)
  have hlastNe : l₁.getLast? ≠ some x := fun hl => hx.1 (List.mem_of_getLast? hl)
  have hfirst : h.headNext a = l₁.head?.or (some x) := by rw [hlists.first, hseq]; simp
  have hlast : h.headPrev a = l₂.getLast?.or (some x) := by
    rw [hlists.last, hseq]
    simp [List.getLast?_append, List.getLast?_cons, Option.or_some]
  have hatEnd : h.headPrev a = some x ↔ l₂ = [] := by
    rw [hlast]
    cases hl : l₂.getLast? with
    | none => simpa using hl
    | some z =>
      have hz := List.mem_of_getLast? hl
      have hzx : z ≠ x := fun heq => hx.2 (heq ▸ hz)
      simpa [hzx] using List.ne_nil_of_mem hz
  have hatFront : h.headNext a = some x ↔ l₁ = [] := by
    rw [hfirst]
    cases hl : l₁.head? with
    | none => simpa using hl
    | some z =>
      have hz := List.mem_of_head? hl
      have hzx : z ≠ x := fun heq => hx.1 (heq ▸ hz)
      simpa [hzx] using List.ne_nil_of_mem hz
  have hprevx : storeField h.prev (h.next x) (h.prev x) x = h.prev x := by
    rw [storeField_apply, hnext, if_neg hheadNe]
  have hfind : (decide (x ∈ seq a) = true) := by simp [hseq]
  have hcheckEnd : h.headPrev a = some x → h.next x = none := fun hl => by
    rw [hnext, hatEnd.mp hl]
    rfl
  have hcheckFront : h.headNext a = some x → h.prev x = none := fun hl => by
    rw [hprev, hatFront.mp hl]
    rfl
  refine ⟨{ h with
      headNext := if h.headNext a = some x then Function.update h.headNext a (h.next x)
        else h.headNext
      headPrev := if h.headPrev a = some x then Function.update h.headPrev a (h.prev x)
        else h.headPrev
      next := storeField (storeField h.next (h.prev x) (h.next x)) (some x) none
      prev := storeField (storeField h.prev (h.next x) (h.prev x)) (some x) none },
    ?_, rfl, hlists.remove hseq ?_ ?_ ?_ ?_⟩
  · simp only [listDelete, hlists.find hbound, ok_bind, check_true hfind, check_true hcheckEnd,
      check_true hcheckFront, hprevx, pure_eq_ok]
  · simp only [hatFront]
    cases hl : l₁ with
    | nil => simp [hnext]
    | cons z l =>
      have hhead : h.headNext a = some z := by rw [hfirst, hl]; rfl
      simp [← hhead]
  · simp only [hatEnd]
    rcases l₂.eq_nil_or_concat with hl | ⟨l, z, hl⟩
    · simp [hl, hprev]
    · have hend : h.headPrev a = some z := by rw [hlast, hl]; simp
      have hlastNew : (l₁ ++ l₂).getLast? = some z := by simp [hl]
      rw [hlastNew, if_neg (by simp [hl]), ← hend, Function.update_eq_self]
  · intro y
    simp only [storeField_apply, hprev, hnext, Option.some.injEq, eq_comm (a := x)]
  · intro y
    simp only [storeField_apply, hprev, hnext, Option.some.injEq, eq_comm (a := x)]

end

end ListHeap.Lists

namespace ListHeap.Represents

variable {h : ListHeap η ν} {seq : η → List ν}

theorem lists (hr : h.Represents seq) : h.Lists seq :=
  { toSeparate := hr.toSeparate, linked := hr.linked, first := hr.first, last := hr.last }

theorem next_eq (hr : h.Represents seq) {a : η} {x : ν} {l₁ l₂ : List ν}
    (hseq : seq a = l₁ ++ x :: l₂) : h.next x = l₂.head? ∧ h.prev x = l₁.getLast? :=
  hr.lists.next_eq hseq

/-- `element_in_list` is exact. -/
theorem elementInList [DecidableEq ν] (hr : h.Represents seq) (a : η) (x : ν) :
    Hyrule.elementInList h a x = .ok (decide (x ∈ seq a)) :=
  hr.lists.elementInList (hr.bound a) x

/-- A change to one list that leaves detached what it takes out. -/
theorem of_local [DecidableEq η] (hr : h.Represents seq) {h' : ListHeap η ν} {a : η}
    {l touched : List ν} (hl : h'.Lists (Function.update seq a l)) (hlocal : h.Local h' a touched)
    (hout : ∀ y ∈ touched, y ∉ l → h'.next y = none ∧ h'.prev y = none)
    (hold : seq a ⊆ touched) (hlength : l.length ≤ h'.appended)
    (happended : h.appended ≤ h'.appended) : h'.Represents (Function.update seq a l) := by
  refine { toSeparate := hl.toSeparate, linked := hl.linked, first := hl.first, last := hl.last,
           detached := ?_, bound := ?_ }
  · intro y hy
    have hyl : y ∉ l := by
      have := hy a
      rwa [Function.update_self] at this
    by_cases hmem : y ∈ touched
    · exact hout y hmem hyl
    · have hfree : ∀ b, y ∉ seq b := by
        intro b
        by_cases hb : b = a
        · exact fun hyb => hmem (hold (hb ▸ hyb))
        · have := hy b
          rwa [Function.update_of_ne hb] at this
      rw [hlocal.next y hmem, hlocal.prev y hmem]
      exact hr.detached y hfree
  · intro b
    by_cases hb : b = a
    · subst hb
      rwa [Function.update_self]
    · rw [Function.update_of_ne hb]
      exact Nat.le_trans (hr.bound b) happended

section

variable [DecidableEq η] [DecidableEq ν]

omit [DecidableEq η] in
/-- `list_init` of a detached node changes nothing. -/
theorem initNode (hr : h.Represents seq) {x : ν} (hx : ∀ b, x ∉ seq b) :
    (h.initNode x).Represents seq := by
  obtain ⟨hnext, hprev⟩ := hr.detached x hx
  have hsame : h.initNode x = h := by
    rw [ListHeap.initNode, ← hnext, Function.update_eq_self, hnext, ← hprev,
      Function.update_eq_self]
  rwa [hsame]

omit [DecidableEq ν] in
/-- `list_init` of the head of an empty list changes nothing. -/
theorem initHead (hr : h.Represents seq) {a : η} (hseq : seq a = []) :
    (h.initHead a).Represents seq := by
  have hfirst : h.headNext a = none := by rw [hr.first, hseq]; rfl
  have hlast : h.headPrev a = none := by rw [hr.last, hseq]; rfl
  have hsame : h.initHead a = h := by
    rw [ListHeap.initHead, ← hfirst, Function.update_eq_self, hfirst, ← hlast,
      Function.update_eq_self]
  rwa [hsame]

/-- `list_append` puts a detached node at the end. -/
theorem append (hr : h.Represents seq) (a : η) {x : ν} (hx : ∀ b, x ∉ seq b) :
    ∃ h', listAppend h a x = .ok h' ∧ h'.Represents (Function.update seq a (seq a ++ [x])) := by
  obtain ⟨hnext, hprev⟩ := hr.detached x hx
  obtain ⟨h', hrun, happended, hl, hlocal⟩ := hr.lists.append a hx hnext hprev
  refine ⟨h', hrun, hr.of_local hl hlocal ?_ (List.subset_cons_self _ _) ?_ (by omega)⟩
  · intro y hy hout
    refine absurd ?_ hout
    rcases List.mem_cons.mp hy with rfl | hy
    · simp
    · simp [hy]
  · have := hr.bound a
    simp
    omega

/-- `list_fetch` of an empty list. -/
theorem fetch_nil (hr : h.Represents seq) {a : η} (hseq : seq a = []) :
    listFetch h a = .ok (none, h) :=
  hr.lists.fetch_nil hseq

/-- `list_fetch` takes the first node. -/
theorem fetch_cons (hr : h.Represents seq) {a : η} {x : ν} {l : List ν} (hseq : seq a = x :: l) :
    ∃ h', listFetch h a = .ok (some x, h') ∧ h'.Represents (Function.update seq a l) := by
  obtain ⟨h', hrun, happended, hl, hlocal, hdetached⟩ := hr.lists.fetch_cons hseq
  refine ⟨h', hrun, hr.of_local hl hlocal ?_ (List.Subset.refl _) ?_ (by omega)⟩
  · intro y hy hout
    rcases List.mem_cons.mp (hseq ▸ hy) with rfl | hy
    · exact hdetached
    · exact absurd hy hout
  · have := hr.bound a
    simp [hseq] at this
    omega

/-- `list_delete` takes a node of the list out. -/
theorem delete (hr : h.Represents seq) {a : η} {x : ν} {l₁ l₂ : List ν}
    (hseq : seq a = l₁ ++ x :: l₂) :
    ∃ h', listDelete h a x = .ok h' ∧ h'.Represents (Function.update seq a (l₁ ++ l₂)) := by
  obtain ⟨h', hrun, happended, hl, hlocal, hdetached⟩ := hr.lists.delete (hr.bound a) hseq
  refine ⟨h', hrun, hr.of_local hl hlocal ?_ (List.Subset.refl _) ?_ (by omega)⟩
  · intro y hy hout
    rw [hseq, List.mem_append, List.mem_cons] at hy
    rw [List.mem_append, not_or] at hout
    obtain rfl : y = x := (hy.resolve_left hout.1).resolve_right hout.2
    exact hdetached
  · have := hr.bound a
    simp [hseq] at this ⊢
    omega

/-- `list_delete` of an element of the list. -/
theorem delete_mem (hr : h.Represents seq) {a : η} {x : ν} (hx : x ∈ seq a) :
    ∃ h', listDelete h a x = .ok h' ∧
      h'.Represents (Function.update seq a ((seq a).erase x)) := by
  obtain ⟨l₁, l₂, hseq, herase⟩ := hr.toSeparate.erase_mem hx
  rw [herase]
  exact hr.delete hseq

end

end ListHeap.Represents

end Hyrule
