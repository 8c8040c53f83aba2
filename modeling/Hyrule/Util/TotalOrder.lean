import Hyrule.Lib.Traced
import Hyrule.Util.Sort
import Mathlib.Order.Antisymmetrization

/-!
# The macros on an ordered type

The macros of `sort.h` and `search.h` with a comparator that answers as a total
preorder does.  Such a comparator follows a key: the class of the elements that
compare equal.  `SORT` then sorts every array (`sort_sorted`): a pass carries a
greatest element to its end.

The lists of `Util/Sort` say what the macros leave behind and check every read.
`ArrayM` has the macros once more as code on an array that logs its reads and
writes.  It does to the cells what the lists do, and whatever the comparator
answers, it returns (`ArrayM.sort_leaves`, `ArrayM.insertionSort_leaves`,
`ArrayM.search_finds`) and stays inside the array (`ArrayM.sort_within` and the
like).
-/

namespace Hyrule

open Lib Lib.Result

variable {α κ : Type}

/-! ## The bubble sort sorts -/

section Sorted

variable [LinearOrder κ] {comp : α → α → Result Int} {key : α → κ}

theorem Follows.subset {l l' : List α} (h : Follows comp key l) (hsub : l' ⊆ l) :
    Follows comp key l' :=
  fun a ha b hb => h a (hsub ha) b (hsub hb)

/-- A pass from an element on carries a greatest one to its end. -/
theorem sortInner_max {q : List α} : ∀ {p s : List α} {x : α}, Follows comp key (x :: q) →
    ∃ front m, sortInner comp (p.length + q.length) p.length (p ++ x :: (q ++ s)) =
        .ok (p ++ (front ++ m :: s)) ∧
      (front ++ [m]).Perm (x :: q) ∧ ∀ a ∈ front, key a ≤ key m := by
  induction q with
  | nil =>
    intro p s x _
    refine ⟨[], x, ?_, List.Perm.refl _, by simp⟩
    rw [sortInner, if_neg (by simp)]
    rfl
  | cons y q ih =>
    intro p s x hf
    obtain ⟨c, hc, hneg, hzero⟩ := hf x (by simp) y (by simp)
    have hnext : elem (p ++ x :: (y :: q ++ s)) (p.length + 1) = .ok y := by simp
    -- The smaller of the two stays behind, and the pass goes on with the other.
    have hstep : ∀ small large, (small = x ∧ large = y ∨ small = y ∧ large = x) →
        key small ≤ key large →
        ∃ front m, sortInner comp (p.length + (q.length + 1)) (p.length + 1)
            (p ++ small :: large :: (q ++ s)) = .ok (p ++ (front ++ m :: s)) ∧
          (front ++ [m]).Perm (x :: y :: q) ∧ ∀ a ∈ front, key a ≤ key m := by
      intro small large hpair hle
      have hsub : large :: q ⊆ x :: y :: q := by
        rcases hpair with ⟨-, rfl⟩ | ⟨-, rfl⟩
        · exact List.subset_cons_self _ _
        · exact List.cons_subset_cons _ (List.subset_cons_self _ _)
      obtain ⟨front, m, hrun, hperm, hmax⟩ := ih (p := p ++ [small]) (s := s) (hf.subset hsub)
      rw [List.length_append, List.length_singleton, Nat.add_assoc, Nat.add_comm 1,
        List.append_assoc, List.append_assoc] at hrun
      refine ⟨small :: front, m, hrun, ?_, ?_⟩
      · refine (hperm.cons small).trans ?_
        rcases hpair with ⟨rfl, rfl⟩ | ⟨rfl, rfl⟩
        · exact List.Perm.refl _
        · exact List.Perm.swap large small q
      · intro a ha
        rcases List.mem_cons.mp ha with rfl | ha
        · have hlarge : large ∈ front ++ [m] := hperm.mem_iff.mpr List.mem_cons_self
          rcases List.mem_append.mp hlarge with hlarge | hlarge
          · exact hle.trans (hmax large hlarge)
          · exact List.mem_singleton.mp hlarge ▸ hle
        · exact hmax a ha
    rw [List.length_cons, sortInner, if_pos (by omega), elem_append_cons, ok_bind, hnext, ok_bind,
      hc, ok_bind]
    split
    next hpos =>
      have hle : key y ≤ key x := by
        refine not_lt.mp fun hlt => ?_
        have := hneg.mpr hlt
        omega
      simpa using hstep y x (Or.inr ⟨rfl, rfl⟩) hle
    next hpos =>
      have hle : key x ≤ key y := by
        rcases Int.lt_or_eq_of_le (Int.not_lt.mp hpos) with hlt | heq
        · exact le_of_lt (hneg.mp hlt)
        · exact le_of_eq (hzero.mp heq)
      simpa using hstep x y (Or.inl ⟨rfl, rfl⟩) hle

/-- The passes sort what is in front of the elements that earlier ones have carried up. -/
theorem sortOuter_sorted {idxOut : Nat} : ∀ {l s : List α}, l.length = idxOut + 1 →
    Follows comp key l →
    ∃ r, sortOuter comp idxOut (l ++ s) = .ok (r ++ s) ∧ r.Perm l ∧ Ascending key r := by
  induction idxOut with
  | zero =>
    intro l s hlen _
    obtain ⟨x, rfl⟩ := List.length_eq_one_iff.mp hlen
    exact ⟨[x], rfl, List.Perm.refl _, List.pairwise_singleton _ _⟩
  | succ idxOut ih =>
    intro l s hlen hf
    obtain ⟨x, q, rfl⟩ := List.exists_cons_of_length_eq_add_one hlen
    obtain ⟨front, m, hpass, hperm, hmax⟩ := sortInner_max (p := []) (s := s) hf
    have hq : q.length = idxOut + 1 := by simpa using hlen
    rw [List.length_nil, Nat.zero_add, hq, List.nil_append, List.nil_append] at hpass
    have hfront : front.length = idxOut + 1 := by
      have := hperm.length_eq
      simp at this
      omega
    have hsub : front ⊆ x :: q := fun a ha => hperm.mem_iff.mp (List.mem_append_left _ ha)
    obtain ⟨r, hrun, hrperm, hasc⟩ := ih (s := m :: s) hfront (hf.subset hsub)
    refine ⟨r ++ [m], ?_, (hrperm.append_right [m]).trans hperm, ?_⟩
    · rw [sortOuter, List.cons_append, hpass, ok_bind, hrun, List.append_assoc]
      rfl
    · refine List.pairwise_append.mpr ⟨hasc, List.pairwise_singleton _ _, ?_⟩
      intro a ha b hb
      rw [List.mem_singleton.mp hb]
      exact hmax a (hrperm.mem_iff.mp ha)

/-- `SORT` sorts every array with a comparator that follows a key. -/
theorem sort_sorted {base : List α} (hf : Follows comp key base) :
    ∃ r, sort comp base = .ok r ∧ r.Perm base ∧ Ascending key r := by
  cases base with
  | nil => exact ⟨[], rfl, List.Perm.refl _, List.Pairwise.nil⟩
  | cons x q =>
    obtain ⟨r, hrun, hperm, hasc⟩ := sortOuter_sorted (s := []) (by simp : _ = q.length + 1) hf
    rw [List.append_nil, List.append_nil] at hrun
    exact ⟨r, hrun, hperm, hasc⟩

end Sorted

/-! ## The macros on an array -/

/-- A comparator that always answers. -/
def answering (comp : α → α → Int) : α → α → Result Int := fun a b => return comp a b

namespace ArrayM

variable {num : Nat}

/-- The inner loop of `SORT`, from `idxIn` on. -/
def sortInner (comp : α → α → Int) (idxOut idxIn : Nat) : TracedM num α Unit :=
  if idxIn < idxOut then do
    let prevElem ← TracedM.read idxIn
    let nextElem ← TracedM.read (idxIn + 1)
    if comp prevElem nextElem > 0 then
      TracedM.write idxIn nextElem
      TracedM.write (idxIn + 1) prevElem
      sortInner comp idxOut (idxIn + 1)
    else sortInner comp idxOut (idxIn + 1)
  else return ()
termination_by idxOut - idxIn

/-- The outer loop of `SORT`, from `idxOut` down. -/
def sortOuter (comp : α → α → Int) : Nat → TracedM num α Unit
  | 0 => return ()
  | idxOut + 1 => do
      sortInner comp (idxOut + 1) 0
      sortOuter comp idxOut

/-- `SORT`. -/
def sort (comp : α → α → Int) : TracedM num α Unit := sortOuter comp (num - 1)

/-- The loop of `INSERTION_SORT` that finds `__idx_move`. -/
def insertionIndex (comp : α → α → Int) (target : α) (low high : Nat) : TracedM num α Nat :=
  if _h : low ≤ high then do
    let elemLow ← TracedM.read low
    let elemHigh ← TracedM.read high
    if comp target elemLow ≤ 0 then return low
    else if comp elemHigh target ≤ 0 then return high + 1
    else
      let mid := (low + high) / 2
      if _hm : mid = low ∨ mid = high then return mid + 1
      else
        let elemMid ← TracedM.read mid
        if comp target elemMid < 0 then insertionIndex comp target low mid
        else insertionIndex comp target mid high
  else return 0
termination_by high - low
decreasing_by all_goals omega

/-- The loop that moves the elements above `move` up by one, from `idx` down. -/
def shiftUp (move : Nat) : Nat → TracedM num α Unit
  | 0 => return ()
  | idx + 1 =>
      if move < idx + 1 then do
        let e ← TracedM.read idx
        TracedM.write (idx + 1) e
        shiftUp move idx
      else return ()

/-- The index `__idx_move` that `INSERTION_SORT` finds for the last element. -/
def insertionMove (comp : α → α → Int) (target : α) : TracedM num α Nat :=
  if 2 ≤ num then insertionIndex comp target 0 (num - 2) else return 0

/-- `INSERTION_SORT`. -/
def insertionSort (comp : α → α → Int) : TracedM num α Unit :=
  if num = 0 then return ()
  else do
    let target ← TracedM.read (num - 1)
    let move ← insertionMove comp target
    if move < num - 1 then do
      shiftUp move (num - 1)
      TracedM.write move target
    else return ()

/-- The loop of `SEARCH`. -/
def searchLoop (comp : α → α → Int) (target : α) (low high : Nat) :
    TracedM num α (Option Nat) :=
  if _h : low ≤ high then do
    let elemLow ← TracedM.read low
    let elemHigh ← TracedM.read high
    if comp target elemLow = 0 then return some low
    else if comp target elemHigh = 0 then return some high
    else
      let mid := (low + high) / 2
      if _hm : mid = low ∨ mid = high then return none
      else
        let elemMid ← TracedM.read mid
        if comp target elemMid < 0 then searchLoop comp target low mid
        else searchLoop comp target mid high
  else return none
termination_by high - low
decreasing_by all_goals omega

/-- `SEARCH`. -/
def search (comp : α → α → Int) (target : α) : TracedM num α (Option Nat) :=
  if num = 0 then return none else searchLoop comp target 0 (num - 1)

/-! ### Accesses -/

theorem sortInner_within (comp : α → α → Int) {idxOut : Nat} (hout : idxOut < num) (idxIn : Nat) :
    (sortInner comp idxOut idxIn : TracedM num α Unit).Within := by
  fun_induction sortInner comp idxOut idxIn with
  | case1 idxIn hlt ih =>
    refine (TracedM.Within.read (by omega)).bind fun prevElem =>
      (TracedM.Within.read (by omega)).bind fun nextElem => ?_
    split
    next =>
      exact (TracedM.Within.write (by omega) _).bind fun _ =>
        (TracedM.Within.write (by omega) _).bind fun _ => ih
    next => exact ih
  | case2 idxIn hlt => exact TracedM.Within.pure ()

theorem sort_within (comp : α → α → Int) : (sort comp : TracedM num α Unit).Within := by
  suffices houter : ∀ idxOut, idxOut ≤ num - 1 →
      (sortOuter comp idxOut : TracedM num α Unit).Within from houter _ (Nat.le_refl _)
  intro idxOut
  induction idxOut with
  | zero => exact fun _ => TracedM.Within.pure ()
  | succ idxOut ih =>
    intro hle
    exact (sortInner_within comp (by omega) 0).bind fun _ => ih (by omega)

theorem insertionIndex_within (comp : α → α → Int) (target : α) {low high : Nat}
    (hhigh : high < num) : (insertionIndex comp target low high : TracedM num α Nat).Within := by
  fun_induction insertionIndex comp target low high with
  | case1 low high hle ihLow ihHigh =>
    refine (TracedM.Within.read (by omega)).bind fun elemLow =>
      (TracedM.Within.read hhigh).bind fun elemHigh => ?_
    split
    next => exact TracedM.Within.pure _
    next =>
      split
      next => exact TracedM.Within.pure _
      next =>
        simp only
        split
        next => exact TracedM.Within.pure _
        next hmid =>
          refine (TracedM.Within.read (by omega)).bind fun elemMid => ?_
          split
          next => exact ihLow hmid (by omega)
          next => exact ihHigh hmid hhigh
  | case2 low high hle => exact TracedM.Within.pure _

theorem shiftUp_within (move : Nat) {idx : Nat} (hidx : idx < num) :
    (shiftUp move idx : TracedM num α Unit).Within := by
  induction idx with
  | zero => exact TracedM.Within.pure ()
  | succ idx ih =>
    rw [shiftUp]
    split
    next =>
      exact (TracedM.Within.read (by omega)).bind fun e =>
        (TracedM.Within.write hidx e).bind fun _ => ih (by omega)
    next => exact TracedM.Within.pure ()

theorem insertionSort_within (comp : α → α → Int) :
    (insertionSort comp : TracedM num α Unit).Within := by
  unfold insertionSort
  split
  next => exact TracedM.Within.pure ()
  next hnum =>
    refine (TracedM.Within.read (by omega)).bind fun target => ?_
    have hmove : (insertionMove comp target : TracedM num α Nat).Within := by
      unfold insertionMove
      split
      next => exact insertionIndex_within comp target (by omega)
      next => exact TracedM.Within.pure 0
    refine hmove.bind fun move => ?_
    split
    next hlt =>
      exact (shiftUp_within move (by omega)).bind fun _ => TracedM.Within.write (by omega) target
    next => exact TracedM.Within.pure ()

theorem searchLoop_within (comp : α → α → Int) (target : α) {low high : Nat}
    (hhigh : high < num) :
    (searchLoop comp target low high : TracedM num α (Option Nat)).Within := by
  fun_induction searchLoop comp target low high with
  | case1 low high hle ihLow ihHigh =>
    refine (TracedM.Within.read (by omega)).bind fun elemLow =>
      (TracedM.Within.read hhigh).bind fun elemHigh => ?_
    split
    next => exact TracedM.Within.pure _
    next =>
      split
      next => exact TracedM.Within.pure _
      next =>
        simp only
        split
        next => exact TracedM.Within.pure _
        next hmid =>
          refine (TracedM.Within.read (by omega)).bind fun elemMid => ?_
          split
          next => exact ihLow hmid (by omega)
          next => exact ihHigh hmid hhigh
  | case2 low high hle => exact TracedM.Within.pure _

theorem search_within (comp : α → α → Int) (target : α) :
    (search comp target : TracedM num α (Option Nat)).Within := by
  unfold search
  split
  next => exact TracedM.Within.pure none
  next => exact searchLoop_within comp target (by omega)

/-! ### What the code does to the cells -/

theorem sortInner_leaves (comp : α → α → Int) {idxOut : Nat} (hout : idxOut < num)
    (idxIn : Nat) : (sortInner comp idxOut idxIn : TracedM num α Unit).Leaves
      (Hyrule.sortInner (answering comp) idxOut idxIn) := by
  fun_induction sortInner comp idxOut idxIn with
  | case1 idxIn hlt ih =>
    intro a
    have hi : idxIn < num := by omega
    have hj : idxIn + 1 < num := by omega
    rw [Hyrule.sortInner, if_pos hlt, TracedM.elem_ofFn a.cells ⟨idxIn, hi⟩, ok_bind,
      TracedM.elem_ofFn a.cells ⟨idxIn + 1, hj⟩, ok_bind,
      TracedM.outcome_bind_ok (TracedM.outcome_read ⟨idxIn, hi⟩),
      TracedM.outcome_bind_ok (TracedM.outcome_read ⟨idxIn + 1, hj⟩)]
    simp only [answering, pure_eq_ok, ok_bind]
    split
    next =>
      rw [TracedM.outcome_bind_ok (TracedM.outcome_write ⟨idxIn, hi⟩ _),
        TracedM.outcome_bind_ok (TracedM.outcome_write ⟨idxIn + 1, hj⟩ _),
        TracedM.set_ofFn a.cells ⟨idxIn, hi⟩, TracedM.set_ofFn _ ⟨idxIn + 1, hj⟩]
      exact ih _
    next => exact ih _
  | case2 idxIn hlt =>
    intro a
    refine ⟨a, rfl, ?_⟩
    rw [Hyrule.sortInner, if_neg hlt]
    rfl

theorem sort_leaves (comp : α → α → Int) :
    (sort comp : TracedM num α Unit).Leaves (Hyrule.sort (answering comp)) := by
  have houter : ∀ idxOut, idxOut ≤ num - 1 → (sortOuter comp idxOut : TracedM num α Unit).Leaves
      (Hyrule.sortOuter (answering comp) idxOut) := by
    intro idxOut
    induction idxOut with
    | zero => exact fun _ a => ⟨a, rfl, rfl⟩
    | succ idxOut ih =>
      intro hle a
      obtain ⟨a₁, hinner, hlist⟩ := sortInner_leaves comp (by omega : idxOut + 1 < num) 0 a
      obtain ⟨a₂, houter, hlist'⟩ := ih (by omega) a₁
      refine ⟨a₂, ?_, ?_⟩
      · rw [sortOuter, TracedM.outcome_bind_ok hinner, houter]
      · rw [Hyrule.sortOuter, hlist, ok_bind, hlist']
  intro a
  have hrun := houter (num - 1) (Nat.le_refl _) a
  rwa [Hyrule.sort, List.length_ofFn]

theorem insertionIndex_finds (comp : α → α → Int) (target : α) {low high : Nat}
    (hhigh : high < num) : (insertionIndex comp target low high : TracedM num α Nat).Finds
      fun l => Hyrule.insertionIndex (answering comp) l target low high := by
  fun_induction insertionIndex comp target low high with
  | case1 low high hle ihLow ihHigh =>
    intro a
    have hlow : low < num := by omega
    beta_reduce
    rw [Hyrule.insertionIndex, dif_pos hle, TracedM.elem_ofFn a.cells ⟨low, hlow⟩, ok_bind,
      TracedM.elem_ofFn a.cells ⟨high, hhigh⟩, ok_bind,
      TracedM.outcome_bind_ok (TracedM.outcome_read ⟨low, hlow⟩),
      TracedM.outcome_bind_ok (TracedM.outcome_read ⟨high, hhigh⟩)]
    simp only [answering, pure_eq_ok, ok_bind]
    split
    next => exact ⟨_, _, rfl, rfl, rfl⟩
    next =>
      split
      next => exact ⟨_, _, rfl, rfl, rfl⟩
      next =>
        split
        next => exact ⟨_, _, rfl, rfl, rfl⟩
        next hm =>
          have hmid : (low + high) / 2 < num := by omega
          rw [TracedM.elem_ofFn a.cells ⟨_, hmid⟩, ok_bind,
            TracedM.outcome_bind_ok (TracedM.outcome_read ⟨_, hmid⟩)]
          split
          next => exact ihLow hm hmid _
          next => exact ihHigh hm hhigh _
  | case2 low high hle =>
    intro a
    refine ⟨0, a, rfl, rfl, ?_⟩
    beta_reduce
    rw [Hyrule.insertionIndex, dif_neg hle]
    rfl

theorem shiftUp_leaves (move : Nat) {idx : Nat} (hidx : idx < num) :
    (shiftUp move idx : TracedM num α Unit).Leaves (Hyrule.shiftUp move idx) := by
  induction idx with
  | zero => exact fun a => ⟨a, rfl, rfl⟩
  | succ idx ih =>
    intro a
    have hi : idx < num := by omega
    rw [shiftUp, Hyrule.shiftUp]
    split
    next =>
      rw [TracedM.elem_ofFn a.cells ⟨idx, hi⟩, ok_bind,
        TracedM.outcome_bind_ok (TracedM.outcome_read ⟨idx, hi⟩),
        TracedM.outcome_bind_ok (TracedM.outcome_write ⟨idx + 1, hidx⟩ _),
        TracedM.set_ofFn a.cells ⟨idx + 1, hidx⟩]
      exact ih hi _
    next => exact ⟨a, rfl, rfl⟩

theorem insertionMove_finds (comp : α → α → Int) (target : α) :
    (insertionMove comp target : TracedM num α Nat).Finds
      fun l => Hyrule.insertionMove (answering comp) l target := by
  intro a
  beta_reduce
  rw [insertionMove, Hyrule.insertionMove, List.length_ofFn]
  split
  next => exact insertionIndex_finds comp target (by omega) a
  next => exact ⟨0, a, rfl, rfl, rfl⟩

theorem insertionSort_leaves (comp : α → α → Int) :
    (insertionSort comp : TracedM num α Unit).Leaves (Hyrule.insertionSort (answering comp)) := by
  intro a
  rw [insertionSort, Hyrule.insertionSort, List.length_ofFn]
  split
  next => exact ⟨a, rfl, rfl⟩
  next hnum =>
    have hlast : num - 1 < num := by omega
    obtain ⟨move, a₁, hrun, hcells, hlist⟩ :=
      insertionMove_finds comp (a.cells ⟨num - 1, hlast⟩) ⟨a.cells, a.accessed ++ [num - 1]⟩
    beta_reduce at hlist
    rw [TracedM.elem_ofFn a.cells ⟨num - 1, hlast⟩, ok_bind, hlist, ok_bind,
      TracedM.outcome_bind_ok (TracedM.outcome_read ⟨num - 1, hlast⟩),
      TracedM.outcome_bind_ok hrun]
    split
    next hlt =>
      have hi : move < num := by omega
      obtain ⟨a₂, hshift, hlist'⟩ := shiftUp_leaves move hlast a₁
      rw [hcells] at hlist'
      rw [TracedM.outcome_bind_ok hshift, TracedM.outcome_write ⟨move, hi⟩, hlist', ok_bind,
        TracedM.set_ofFn a₂.cells ⟨move, hi⟩]
      exact ⟨_, rfl, rfl⟩
    next => exact ⟨a₁, rfl, by rw [hcells]; rfl⟩

theorem searchLoop_finds (comp : α → α → Int) (target : α) {low high : Nat}
    (hhigh : high < num) : (searchLoop comp target low high : TracedM num α (Option Nat)).Finds
      fun l => Hyrule.searchLoop (answering comp) l target low high := by
  fun_induction searchLoop comp target low high with
  | case1 low high hle ihLow ihHigh =>
    intro a
    have hlow : low < num := by omega
    beta_reduce
    rw [Hyrule.searchLoop, dif_pos hle, TracedM.elem_ofFn a.cells ⟨low, hlow⟩, ok_bind,
      TracedM.elem_ofFn a.cells ⟨high, hhigh⟩, ok_bind,
      TracedM.outcome_bind_ok (TracedM.outcome_read ⟨low, hlow⟩),
      TracedM.outcome_bind_ok (TracedM.outcome_read ⟨high, hhigh⟩)]
    simp only [answering, pure_eq_ok, ok_bind]
    split
    next => exact ⟨_, _, rfl, rfl, rfl⟩
    next =>
      split
      next => exact ⟨_, _, rfl, rfl, rfl⟩
      next =>
        split
        next => exact ⟨_, _, rfl, rfl, rfl⟩
        next hm =>
          have hmid : (low + high) / 2 < num := by omega
          rw [TracedM.elem_ofFn a.cells ⟨_, hmid⟩, ok_bind,
            TracedM.outcome_bind_ok (TracedM.outcome_read ⟨_, hmid⟩)]
          split
          next => exact ihLow hm hmid _
          next => exact ihHigh hm hhigh _
  | case2 low high hle =>
    intro a
    refine ⟨none, a, rfl, rfl, ?_⟩
    beta_reduce
    rw [Hyrule.searchLoop, dif_neg hle]
    rfl

theorem search_finds (comp : α → α → Int) (target : α) :
    (search comp target : TracedM num α (Option Nat)).Finds
      fun l => Hyrule.search (answering comp) l target := by
  intro a
  have hlength : (List.ofFn a.cells).length = num := List.length_ofFn
  beta_reduce
  rw [search, Hyrule.search, hlength]
  split
  next => exact ⟨none, a, rfl, rfl, rfl⟩
  next => exact searchLoop_finds comp target (by omega) a

end ArrayM

/-! ## Total preorders -/

/-- The comparator answers as a total preorder says. -/
structure Induced (comp : α → α → Int) (le : α → α → Prop) : Prop where
  total : ∀ a b, le a b ∨ le b a
  trans : ∀ a b c, le a b → le b c → le a c
  neg : ∀ a b, comp a b < 0 ↔ ¬ le b a
  pos : ∀ a b, 0 < comp a b ↔ ¬ le a b

-- The elements that compare equal need not be the same.
example : Induced (fun a b : Nat => (a / 2 : Int) - b / 2) fun a b => a / 2 ≤ b / 2 where
  total a b := Nat.le_total _ _
  trans a b c := Nat.le_trans
  neg a b := by omega
  pos a b := by omega

/-- The elements that compare equal are the key that the comparator follows. -/
theorem Induced.follows {comp : α → α → Int} {le : α → α → Prop} (h : Induced comp le) :
    ∃ (κ : Type) (_ : LinearOrder κ) (key : α → κ), (∀ a b, key a ≤ key b ↔ le a b) ∧
      ∀ l, Follows (answering comp) key l := by
  classical
  let preorder : Preorder α :=
    { le := le
      le_refl := fun a => (h.total a a).elim id id
      le_trans := h.trans }
  have htotal : Std.Total (α := α) (· ≤ ·) := ⟨h.total⟩
  have hle : ∀ a b : α, toAntisymmetrization (· ≤ ·) a ≤ toAntisymmetrization (· ≤ ·) b ↔ le a b :=
    fun a b => toAntisymmetrization_le_toAntisymmetrization_iff
  refine ⟨Antisymmetrization α (· ≤ ·), inferInstance, toAntisymmetrization (· ≤ ·), hle, ?_⟩
  intro l a _ b _
  refine ⟨comp a b, rfl, ?_, ?_⟩
  · rw [h.neg, ← hle b a, not_le]
  · have hkey : toAntisymmetrization (· ≤ ·) a = toAntisymmetrization (· ≤ ·) b ↔
        le a b ∧ le b a := by
      rw [le_antisymm_iff, hle, hle]
    have hneg := h.neg a b
    have hpos := h.pos a b
    rw [hkey]
    constructor
    · intro hzero
      exact ⟨by_contra fun hnot => by have := hpos.mpr hnot; omega,
        by_contra fun hnot => by have := hneg.mpr hnot; omega⟩
    · rintro ⟨hab, hba⟩
      have h1 : ¬ comp a b < 0 := fun hlt => hneg.mp hlt hba
      have h2 : ¬ 0 < comp a b := fun hlt => hpos.mp hlt hab
      omega

/-- The code returns from the cells of an array, leaves others behind, and accesses the array
inside its bounds alone. -/
def Completes {num : Nat} {β : Type} (m : TracedM num α β) (cells : Fin num → α) (b : β)
    (cells' : Fin num → α) : Prop :=
  ∃ accessed, m.outcome ⟨cells, []⟩ = (.ok b, ⟨cells', accessed⟩) ∧ ∀ i ∈ accessed, i < num

theorem completes_of_within {num : Nat} {β : Type} {m : TracedM num α β} {cells : Fin num → α}
    {b : β} {a : Traced num α} (hm : m.outcome ⟨cells, []⟩ = (.ok b, a)) (hwithin : m.Within) :
    Completes m cells b a.cells := by
  have hinside := hwithin ⟨cells, []⟩ (by simp [Traced.Inside])
  rw [hm] at hinside
  exact ⟨a.accessed, hm, hinside⟩

/-- With any comparator the insertion sort permutes the array. -/
theorem insertionSort_perm {comp : α → α → Int} {base r : List α}
    (h : insertionSort (answering comp) base = .ok r) : r.Perm base := by
  rcases List.eq_nil_or_concat' base with rfl | ⟨l, x, rfl⟩
  · obtain rfl : [] = r := by simpa [insertionSort] using h
    exact List.Perm.refl _
  · have hans : Answers (answering comp) (l ++ [x]) x := fun e _ => ⟨⟨_, rfl⟩, _, rfl⟩
    obtain ⟨m, hm, hsort⟩ := insertionSort_spec hans
    obtain rfl := Except.ok.inj (hsort.symm.trans h)
    exact (List.perm_insertIdx x l hm).trans (List.perm_append_singleton x l).symm

namespace Induced

variable {comp : α → α → Int} {le : α → α → Prop}

theorem sort_pairwise (h : Induced comp le) {base r : List α}
    (hsort : sort (answering comp) base = .ok r) : r.Pairwise le := by
  obtain ⟨κ, _, key, hle, hfollows⟩ := h.follows
  obtain ⟨r', hsort', -, hasc⟩ := sort_sorted (hfollows base)
  obtain rfl := Except.ok.inj (hsort'.symm.trans hsort)
  exact hasc.imp fun {x y} hxy => (hle x y).mp hxy

theorem insertionSort_pairwise (h : Induced comp le) {base r : List α}
    (hfront : base.dropLast.Pairwise le)
    (hsort : insertionSort (answering comp) base = .ok r) : r.Pairwise le := by
  obtain ⟨κ, _, key, hle, hfollows⟩ := h.follows
  rcases List.eq_nil_or_concat' base with rfl | ⟨l, x, rfl⟩
  · obtain rfl : [] = r := by simpa [insertionSort] using hsort
    exact List.Pairwise.nil
  · rw [List.dropLast_concat] at hfront
    have hasc : Ascending key l := hfront.imp fun {a b} hab => (hle a b).mpr hab
    obtain ⟨m, -, hsort', hasc'⟩ := insertionSort_sorted (hfollows (l ++ [x])) hasc
    obtain rfl := Except.ok.inj (hsort'.symm.trans hsort)
    exact hasc'.imp fun {a b} hab => (hle a b).mp hab

/-- On an array in order the search misses nothing. -/
theorem search_ne_none (h : Induced comp le) {base : List α} {target : α} {found : Option Nat}
    (hsorted : base.Pairwise le) (hsearch : search (answering comp) base target = .ok found)
    {e : α} (he : e ∈ base) (hequal : comp target e = 0) : found ≠ none := by
  obtain ⟨κ, _, key, hle, hfollows⟩ := h.follows
  have hasc : Ascending key base := hsorted.imp fun {a b} hab => (hle a b).mpr hab
  obtain ⟨c, hdescends, -⟩ := (hfollows (target :: base)).descends hasc
  obtain ⟨r, hsearch', -, hnone⟩ := search_spec hdescends
  obtain rfl := Except.ok.inj (hsearch'.symm.trans hsearch)
  obtain ⟨i, hi, rfl⟩ := List.getElem_of_mem he
  have hc := hdescends.answer i base[i] (List.getElem?_eq_getElem hi)
  intro hr
  exact hnone hr i hi ((Except.ok.inj hc).symm.trans hequal)

end Induced

/-- The macros return and stay inside the array whatever the comparator answers, and both sorts
permute it.  With a comparator of a total preorder `SORT` sorts every array, `INSERTION_SORT`
one that is sorted but for its last element, and on a sorted array `SEARCH` finds an element
that compares equal if and only if there is one. -/
theorem macros_correct {num : Nat} (comp : α → α → Int) (cells : Fin num → α) (target : α) :
    (∃ sorted, Completes (ArrayM.sort comp) cells () sorted ∧
      (List.ofFn sorted).Perm (List.ofFn cells) ∧
      ∀ le, Induced comp le → (List.ofFn sorted).Pairwise le) ∧
    (∃ inserted, Completes (ArrayM.insertionSort comp) cells () inserted ∧
      (List.ofFn inserted).Perm (List.ofFn cells) ∧
      ∀ le, Induced comp le → (List.ofFn cells).dropLast.Pairwise le →
        (List.ofFn inserted).Pairwise le) ∧
    ∃ found, Completes (ArrayM.search comp target) cells found cells ∧
      (∀ i, found = some i → ∃ h : i < num, comp target (cells ⟨i, h⟩) = 0) ∧
      ∀ le, Induced comp le → (List.ofFn cells).Pairwise le →
        (found ≠ none ↔ ∃ i, comp target (cells i) = 0) := by
  refine ⟨?_, ?_, ?_⟩
  · obtain ⟨a, hrun, hlist⟩ := ArrayM.sort_leaves comp ⟨cells, []⟩
    exact ⟨a.cells, completes_of_within hrun (ArrayM.sort_within comp), sort_perm hlist,
      fun le hinduced => hinduced.sort_pairwise hlist⟩
  · obtain ⟨a, hrun, hlist⟩ := ArrayM.insertionSort_leaves comp ⟨cells, []⟩
    exact ⟨a.cells, completes_of_within hrun (ArrayM.insertionSort_within comp),
      insertionSort_perm hlist,
      fun le hinduced hfront => hinduced.insertionSort_pairwise hfront hlist⟩
  · obtain ⟨found, a, hrun, hcells, hlist⟩ := ArrayM.search_finds comp target ⟨cells, []⟩
    have hcompletes := completes_of_within hrun (ArrayM.search_within comp target)
    rw [hcells] at hcompletes
    have hsound : ∀ i, found = some i → ∃ h : i < num, comp target (cells ⟨i, h⟩) = 0 := by
      rintro i rfl
      obtain ⟨e, he, hequal⟩ := search_sound hlist
      obtain ⟨hi, rfl⟩ := List.getElem?_eq_some_iff.mp he
      rw [List.getElem_ofFn] at hequal
      exact ⟨by simpa using hi, Except.ok.inj hequal⟩
    refine ⟨found, hcompletes, hsound, ?_⟩
    intro le hinduced hsorted
    constructor
    · intro hfound
      obtain ⟨i, hi⟩ := Option.ne_none_iff_exists'.mp hfound
      obtain ⟨h, hequal⟩ := hsound i hi
      exact ⟨⟨i, h⟩, hequal⟩
    · rintro ⟨i, hequal⟩
      exact hinduced.search_ne_none hsorted hlist (List.mem_ofFn.mpr ⟨i, rfl⟩) hequal

end Hyrule
