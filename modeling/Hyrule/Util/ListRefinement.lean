import Hyrule.Util.List

/-!
# Linked lists as sequences

All functions of `list.c` together, on any heap whose heads stand for separate
sequences (`ListHeap.Lists`): a node in no list may point anywhere.  Every
function does to the sequence of its head what its name says and touches no node
of another list (`ListHeap.Local`).

`listPrepend` and `listPop` are the functions that no other code calls.
`foreachDelete` is a loop in the manner of `process_blocking_list`: its body
takes the current node out, and may put it into another list.
-/

namespace Hyrule

open Lib Lib.Result

variable {η ν : Type}

section

variable [DecidableEq η] [DecidableEq ν]

/-- `list_prepend`. -/
def listPrepend (h : ListHeap η ν) (head : η) (elem : ν) : Result (ListHeap η ν) := do
  check (h.prev elem = none)
  check (h.next elem = none)
  return {
    headNext := Function.update h.headNext head (some elem)
    headPrev := if h.headPrev head = none then Function.update h.headPrev head (some elem)
      else h.headPrev
    next := if h.headNext head = none then h.next
      else storeField h.next (some elem) (h.headNext head)
    prev := storeField h.prev (h.headNext head) (some elem)
    appended := h.appended + 1 }

/-- `list_pop`. -/
def listPop (h : ListHeap η ν) (head : η) : Result (Option ν × ListHeap η ν) :=
  if h.headNext head = none then return (none, h)
  else do
    let elem ← require (h.headPrev head)
    let next := storeField h.next (h.prev elem) none
    check (next elem = none)
    return (some elem, { h with
      headNext := if h.prev elem = none then Function.update h.headNext head none
        else h.headNext
      headPrev := Function.update h.headPrev head (h.prev elem)
      next
      prev := storeField h.prev (some elem) none })

/-- The body of a loop that takes the current node out of its list, and puts it at the end of
another one if there is one for it. -/
def deleteCurrent (head : η) (moveTo : ν → Option η) (elem : ν) (h : ListHeap η ν) :
    Result (ListHeap η ν) := do
  let h ← listDelete h head elem
  match moveTo elem with
  | none => return h
  | some other => listAppend h other elem

/-- `LIST_FOREACH_START` to `LIST_FOREACH_END` around `deleteCurrent`: the heap behind it, and the
nodes in the order in which the body ran on them. -/
def foreachDelete (h : ListHeap η ν) (head : η) (moveTo : ν → Option η) :
    Result (ListHeap η ν × List ν) :=
  listForeach (fun s elem => s.1.next elem)
    (fun elem s => do
      let h ← deleteCurrent head moveTo elem s.1
      return ((h, s.2 ++ [elem]), false))
    h.appended (h.headNext head) (h, [])

end

/-- The node points nowhere. -/
def ListHeap.Detached (h : ListHeap η ν) (x : ν) : Prop := h.next x = none ∧ h.prev x = none

/-- The sequences in the middle of `foreachDelete`: the nodes `done` of the list have left it, and
the nodes `l` are to come. -/
def midway [DecidableEq η] (seq : η → List ν) (a : η) (moveTo : ν → Option η) (done l : List ν) :
    η → List ν :=
  fun b => if b = a then l else seq b ++ done.filter fun x => moveTo x = some b

namespace ListHeap.Lists

variable {h : ListHeap η ν} {seq : η → List ν} [DecidableEq η] [DecidableEq ν]

/-! ## Both ends -/

/-- `list_prepend` puts a detached node at the front. -/
theorem prepend (hlists : h.Lists seq) (a : η) {x : ν} (hx : ∀ b, x ∉ seq b)
    (hnext : h.next x = none) (hprev : h.prev x = none) :
    ∃ h', listPrepend h a x = .ok h' ∧
      h'.Lists (Function.update seq a (x :: seq a)) ∧ h.Local h' a (x :: seq a) := by
  have hfirstNe : (seq a).head? ≠ some x := fun hl => hx a (List.mem_of_head? hl)
  have hseq : seq a = [] ++ seq a := rfl
  unfold listPrepend
  rw [check_true hprev, check_true hnext, ok_bind, ok_bind, pure_eq_ok]
  refine ⟨_, rfl, hlists.insert hseq hx ?_ ?_ ?_ ?_⟩
  · simp
  · rw [hlists.last]
    cases hlast : (seq a).getLast? with
    | none => simp
    | some y =>
      have hend : h.headPrev a = some y := by rw [hlists.last, hlast]
      rw [if_neg (by simp), Option.some_or, ← hend, Function.update_eq_self]
  · intro y
    simp only [hlists.first]
    by_cases hy : y = x
    · subst hy
      cases (seq a).head? <;> simp [hnext, storeField_apply]
    · cases (seq a).head? <;> simp [hy, Ne.symm hy, storeField_apply]
  · intro y
    simp only [storeField_apply, hlists.first]
    by_cases hy : y = x
    · simp [hy, hfirstNe, hprev]
    · simp [hy]

/-- `list_pop` takes the last node. -/
theorem pop_concat (hlists : h.Lists seq) {a : η} {x : ν} {l : List ν} (hseq : seq a = l ++ [x]) :
    ∃ h', listPop h a = .ok (some x, h') ∧ h'.Lists (Function.update seq a l) ∧
      h.Local h' a (seq a) ∧ h'.Detached x := by
  obtain ⟨hnext, hprev⟩ := hlists.next_eq hseq
  have hx : x ∉ l := by
    have := hlists.nodup a
    rw [hseq] at this
    exact fun hmem => (List.nodup_append.mp this).2.2 x hmem x (by simp) rfl
  have hlastNe : l.getLast? ≠ some x := fun hl => hx (List.mem_of_getLast? hl)
  have hfirst : h.headNext a ≠ none := by
    rw [hlists.first, hseq]
    simp
  have hlast : h.headPrev a = some x := by
    rw [hlists.last, hseq]
    simp
  have hcheck : storeField h.next (h.prev x) none x = none := by
    rw [storeField_apply, hprev, if_neg hlastNe, hnext]
    rfl
  refine ⟨{ h with
      headNext := if h.prev x = none then Function.update h.headNext a none else h.headNext
      headPrev := Function.update h.headPrev a (h.prev x)
      next := storeField h.next (h.prev x) none
      prev := storeField h.prev (some x) none }, ?_, ?_⟩
  · simp only [listPop, if_neg hfirst, hlast, require, check_true hcheck, ok_bind, pure_eq_ok]
  · rw [← List.append_nil l]
    refine hlists.remove hseq ?_ ?_ ?_ ?_
    · simp only [hprev, List.append_nil]
      cases hl : l with
      | nil => simp
      | cons y l' =>
        have hhead : h.headNext a = some y := by rw [hlists.first, hseq, hl]; rfl
        simp [← hhead]
    · simp [hprev]
    · intro y
      simp only [storeField_apply, hprev]
      by_cases hy : y = x
      · simp [hy, hlastNe, hnext]
      · simp [hy]
    · intro y
      simp [storeField_apply, eq_comm]

/-- `list_pop`, also of an empty list. -/
theorem pop (hlists : h.Lists seq) (a : η) :
    ∃ h', listPop h a = .ok ((seq a).getLast?, h') ∧
      h'.Lists (Function.update seq a (seq a).dropLast) ∧ h.Local h' a (seq a) ∧
      ∀ x ∈ (seq a).getLast?, h'.Detached x := by
  rcases List.eq_nil_or_concat' (seq a) with hseq | ⟨l, x, hseq⟩
  · have hfirst : h.headNext a = none := by rw [hlists.first, hseq]; rfl
    refine ⟨h, ?_, ?_, ⟨fun _ _ => rfl, fun _ _ => rfl, fun _ _ => rfl, fun _ _ => rfl⟩, ?_⟩
    · rw [listPop, if_pos hfirst, hseq]
      rfl
    · rw [hseq, List.dropLast_nil, ← hseq, Function.update_eq_self]
      exact hlists
    · simp [hseq]
  · obtain ⟨h', hrun, hlists', hlocal, hdetached⟩ := hlists.pop_concat hseq
    have hlast : (seq a).getLast? = some x := by simp [hseq]
    have hfront : (seq a).dropLast = l := by simp [hseq]
    refine ⟨h', hlast ▸ hrun, hfront ▸ hlists', hlocal, ?_⟩
    rintro y hy
    rw [hlast] at hy
    exact Option.some.inj hy ▸ hdetached

/-- `list_fetch`, also of an empty list. -/
theorem fetch (hlists : h.Lists seq) (a : η) :
    ∃ h', listFetch h a = .ok ((seq a).head?, h') ∧
      h'.Lists (Function.update seq a (seq a).tail) ∧ h.Local h' a (seq a) ∧
      ∀ x ∈ (seq a).head?, h'.Detached x := by
  cases hseq : seq a with
  | nil =>
    refine ⟨h, hlists.fetch_nil hseq, ?_, ⟨fun _ _ => rfl, fun _ _ => rfl, fun _ _ => rfl,
      fun _ _ => rfl⟩, by simp⟩
    rw [List.tail_nil, ← hseq, Function.update_eq_self]
    exact hlists
  | cons x l =>
    obtain ⟨h', hrun, -, hlists', hlocal, hdetached⟩ := hlists.fetch_cons hseq
    refine ⟨h', hrun, hlists', hseq ▸ hlocal, ?_⟩
    intro y hy
    exact Option.some.inj hy ▸ hdetached

/-! ## A loop that deletes -/

omit [DecidableEq ν] in
theorem update_midway (a : η) (moveTo : ν → Option η) (done l : List ν) (x : ν)
    (hx : moveTo x = none) :
    Function.update (midway seq a moveTo done (x :: l)) a l =
      midway seq a moveTo (done ++ [x]) l := by
  funext b
  by_cases hb : b = a
  · subst hb
    simp [midway]
  · rw [Function.update_of_ne hb]
    simp [midway, hb, hx]

omit [DecidableEq ν] in
theorem update_update_midway {a b : η} (hb : b ≠ a) (moveTo : ν → Option η) (done l : List ν)
    (x : ν) (hx : moveTo x = some b) :
    Function.update (Function.update (midway seq a moveTo done (x :: l)) a l) b
        (Function.update (midway seq a moveTo done (x :: l)) a l b ++ [x]) =
      midway seq a moveTo (done ++ [x]) l := by
  funext c
  by_cases hc : c = b
  · subst hc
    rw [Function.update_self, Function.update_of_ne hb]
    simp [midway, hb, hx]
  · rw [Function.update_of_ne hc]
    by_cases hca : c = a
    · subst hca
      simp [midway]
    · rw [Function.update_of_ne hca]
      simp [midway, hca, hx, Ne.symm hc]

/-- The body of the loop on the first of the nodes to come. -/
theorem deleteCurrent {a : η} {moveTo : ν → Option η} {done l : List ν} {x : ν}
    (hlists : h.Lists (midway seq a moveTo done (x :: l))) (hbound : l.length + 1 ≤ h.appended)
    (hmove : moveTo x ≠ some a) :
    ∃ h', Hyrule.deleteCurrent a moveTo x h = .ok h' ∧
      h'.Lists (midway seq a moveTo (done ++ [x]) l) ∧ h.appended ≤ h'.appended := by
  have hseq : midway seq a moveTo done (x :: l) a = [] ++ x :: l := by simp [midway]
  have hlength : (midway seq a moveTo done (x :: l) a).length ≤ h.appended := by
    simpa [hseq] using hbound
  obtain ⟨h₁, hdelete, happended, hlists₁, -, hnext, hprev⟩ := hlists.delete hlength hseq
  rw [List.nil_append] at hlists₁
  have hout : ∀ b, x ∉ Function.update (midway seq a moveTo done (x :: l)) a l b := by
    intro b hmem
    by_cases hb : b = a
    · subst hb
      rw [Function.update_self] at hmem
      have hnodup := hlists.nodup b
      rw [hseq] at hnodup
      exact (List.nodup_cons.mp hnodup).1 hmem
    · rw [Function.update_of_ne hb] at hmem
      exact hb (hlists.apart b a x hmem (by simp [hseq]))
  unfold Hyrule.deleteCurrent
  rw [hdelete, ok_bind]
  cases hto : moveTo x with
  | none =>
    refine ⟨h₁, rfl, ?_, by omega⟩
    rw [← update_midway a moveTo done l x hto]
    exact hlists₁
  | some b =>
    have hb : b ≠ a := fun heq => hmove (heq ▸ hto)
    obtain ⟨h₂, happend, happended₂, hlists₂, -⟩ := hlists₁.append b hout hnext hprev
    refine ⟨h₂, happend, ?_, by omega⟩
    rw [← update_update_midway hb moveTo done l x hto]
    exact hlists₂

/-- The loop runs its body once on every node, and leaves the list empty. -/
theorem foreachDelete (hlists : h.Lists seq) {a : η} (hbound : (seq a).length ≤ h.appended)
    {moveTo : ν → Option η} (hmove : ∀ x ∈ seq a, moveTo x ≠ some a) :
    ∃ h', Hyrule.foreachDelete h a moveTo = .ok (h', seq a) ∧
      h'.Lists (midway seq a moveTo (seq a) []) := by
  have hstart : midway seq a moveTo [] (seq a) = seq := by
    funext b
    by_cases hb : b = a
    · simp [midway, hb]
    · simp [midway, hb]
  suffices hloop : ∃ s, Hyrule.foreachDelete h a moveTo = .ok s ∧ s.2 = seq a ∧
      s.1.Lists (midway seq a moveTo (seq a) []) by
    obtain ⟨s, hrun, hvisited, hlists'⟩ := hloop
    exact ⟨s.1, by rw [hrun, ← hvisited], hlists'⟩
  unfold Hyrule.foreachDelete
  rw [hlists.first]
  refine listForeach_spec (fun l s => s.2 ++ l = seq a ∧ s.1.Lists (midway seq a moveTo s.2 l) ∧
    l.length ≤ s.1.appended) ?_ ?_ hbound ⟨rfl, hstart.symm ▸ hlists, hbound⟩
  · rintro s ⟨hvisited, hlists', -⟩
    rw [List.append_nil] at hvisited
    exact ⟨hvisited, hvisited ▸ hlists'⟩
  · rintro x l s ⟨hvisited, hlists', hlength⟩
    have hseq : midway seq a moveTo s.2 (x :: l) a = [] ++ x :: l := by simp [midway]
    have hx : moveTo x ≠ some a := hmove x (by simp [← hvisited])
    obtain ⟨h', hbody, hlists'', happended⟩ := hlists'.deleteCurrent hlength hx
    refine ⟨(hlists'.next_eq hseq).1, (h', s.2 ++ [x]), false, ?_, ?_⟩
    · rw [hbody, ok_bind]
      rfl
    · rw [if_neg Bool.false_ne_true]
      refine ⟨by simpa using hvisited, hlists'', ?_⟩
      exact Nat.le_trans (Nat.le_of_succ_le hlength) happended

end ListHeap.Lists

/-- The functions of `list.c` on the heads of separate sequences.  None of them fails an
assertion, and a node that is taken out is detached.  Those with a loop return if the loop is given
as many rounds as the list has nodes. -/
theorem lists_refine_sequences [DecidableEq η] [DecidableEq ν] {h : ListHeap η ν}
    {seq : η → List ν} (hlists : h.Lists seq) (a : η) :
    (∀ x, (∀ b, x ∉ seq b) → h.Detached x →
      (∃ h', listAppend h a x = .ok h' ∧ h'.Lists (Function.update seq a (seq a ++ [x])) ∧
        h.Local h' a (x :: seq a)) ∧
      ∃ h', listPrepend h a x = .ok h' ∧ h'.Lists (Function.update seq a (x :: seq a)) ∧
        h.Local h' a (x :: seq a)) ∧
    (∃ h', listPop h a = .ok ((seq a).getLast?, h') ∧
      h'.Lists (Function.update seq a (seq a).dropLast) ∧ h.Local h' a (seq a) ∧
      ∀ x ∈ (seq a).getLast?, h'.Detached x) ∧
    (∃ h', listFetch h a = .ok ((seq a).head?, h') ∧
      h'.Lists (Function.update seq a (seq a).tail) ∧ h.Local h' a (seq a) ∧
      ∀ x ∈ (seq a).head?, h'.Detached x) ∧
    ((seq a).length ≤ h.appended →
      (∀ x ∈ seq a, ∃ h', listDelete h a x = .ok h' ∧
        h'.Lists (Function.update seq a ((seq a).erase x)) ∧ h.Local h' a (seq a) ∧
        h'.Detached x) ∧
      (∀ x, elementInList h a x = .ok (decide (x ∈ seq a))) ∧
      ∀ moveTo : ν → Option η, (∀ x ∈ seq a, moveTo x ≠ some a) →
        ∃ h', foreachDelete h a moveTo = .ok (h', seq a) ∧
          h'.Lists (midway seq a moveTo (seq a) [])) := by
  refine ⟨?_, hlists.pop a, hlists.fetch a, ?_⟩
  · rintro x hx ⟨hnext, hprev⟩
    obtain ⟨h', hrun, -, hlists', hlocal⟩ := hlists.append a hx hnext hprev
    exact ⟨⟨h', hrun, hlists', hlocal⟩, hlists.prepend a hx hnext hprev⟩
  · intro hbound
    refine ⟨?_, hlists.elementInList hbound, fun moveTo hmove => hlists.foreachDelete hbound hmove⟩
    intro x hx
    obtain ⟨l₁, l₂, hseq, herase⟩ := hlists.toSeparate.erase_mem hx
    obtain ⟨h', hrun, -, hlists', hlocal, hdetached⟩ := hlists.delete hbound hseq
    exact ⟨h', hrun, herase ▸ hlists', hlocal, hdetached⟩

/-- Two lists of two nodes and of one, beside a node in no list that points at one of theirs: a
loop moves the nodes of the first into the second. -/
theorem lists_refine_sequences_two :
    ∃ (h : ListHeap Bool Nat) (seq : Bool → List Nat), h.Lists seq ∧ seq false = [1, 2] ∧
      seq true = [3] ∧ h.next 7 = some 1 ∧
      ∃ h', foreachDelete h false (fun _ => some true) = .ok (h', [1, 2]) ∧
        h'.Lists (midway seq false (fun _ => some true) [1, 2] []) := by
  have hlists : (⟨fun b => if b then some 3 else some 1, fun b => if b then some 3 else some 2,
      fun x => if x = 1 then some 2 else if x = 7 then some 1 else none,
      fun x => if x = 2 then some 1 else none, 3⟩ : ListHeap Bool Nat).Lists
        fun b => if b then [3] else [1, 2] := by
    refine { nodup := by decide, apart := ?_, linked := ?_, first := by decide, last := by decide }
    · intro a b x ha hb
      cases a <;> cases b <;> simp_all
    · intro a
      cases a <;> simp [Linked]
  obtain ⟨-, -, -, hloops⟩ := lists_refine_sequences hlists false
  obtain ⟨-, -, hforeach⟩ := hloops (by decide)
  exact ⟨_, _, hlists, rfl, rfl, rfl, hforeach (fun _ => some true) (by decide)⟩

end Hyrule
