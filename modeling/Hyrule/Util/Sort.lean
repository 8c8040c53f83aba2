import Hyrule.Lib.Result
import Mathlib.Data.BitVec
import Mathlib.Data.List.Basic
import Mathlib.Data.List.Induction
import Mathlib.Order.Defs.LinearOrder

/-!
# Sorting and searching

The macros of `sort.h` and `search.h`.  The array is the list of the `num`
elements the macro is given, a pointer to an element is its index, and the
comparator may stop the process.

* `sort` is the bubble sort `SORT`.
* `insertionSort` is `INSERTION_SORT`: the elements but the last are taken as
  sorted, a binary loop finds an index for the last one, and the elements from
  that index on move up by one.
* `search` is `SEARCH`: both ends of the window are compared first, then the
  midpoint, which becomes the new end without being excluded.

What a proof needs of a comparator is what it answers on the elements at hand.
`search_spec` asks that the answers along the array are first positive, then
zero, then negative.  `insertionSort_spec` asks only that the comparator always
answers and gives the inserted position.  That position is the sorted one when
the comparator follows a key (`Follows`, `insertionSort_sorted`).  `sort_insert`
says where the bubble sort puts one more element behind an array in order, for
any comparator.
-/

namespace Hyrule

open Lib Lib.Result

variable {α κ : Type}

/-! ## The bubble sort -/

/-- The inner loop of `SORT`, from `idxIn` on. -/
def sortInner (comp : α → α → Result Int) (idxOut idxIn : Nat) (base : List α) :
    Result (List α) :=
  if idxIn < idxOut then do
    let prevElem ← elem base idxIn
    let nextElem ← elem base (idxIn + 1)
    if (← comp prevElem nextElem) > 0 then
      sortInner comp idxOut (idxIn + 1) ((base.set idxIn nextElem).set (idxIn + 1) prevElem)
    else
      sortInner comp idxOut (idxIn + 1) base
  else return base
termination_by idxOut - idxIn

/-- The outer loop of `SORT`, from `idxOut` down. -/
def sortOuter (comp : α → α → Result Int) : Nat → List α → Result (List α)
  | 0, base => return base
  | idxOut + 1, base => do
      let base' ← sortInner comp (idxOut + 1) 0 base
      sortOuter comp idxOut base'

/-- `SORT`. -/
def sort (comp : α → α → Result Int) (base : List α) : Result (List α) :=
  sortOuter comp (base.length - 1) base

/-! ## The binary insertion sort -/

/-- The loop of `INSERTION_SORT` that finds `__idx_move`. -/
def insertionIndex (comp : α → α → Result Int) (base : List α) (target : α)
    (low high : Nat) : Result Nat :=
  if _h : low ≤ high then do
    let elemLow ← elem base low
    let elemHigh ← elem base high
    if (← comp target elemLow) ≤ 0 then return low
    else if (← comp elemHigh target) ≤ 0 then return high + 1
    else
      let mid := (low + high) / 2
      if _hm : mid = low ∨ mid = high then return mid + 1
      else
        let elemMid ← elem base mid
        if (← comp target elemMid) < 0 then insertionIndex comp base target low mid
        else insertionIndex comp base target mid high
  else return 0
termination_by high - low
decreasing_by all_goals omega

/-- The loop that moves the elements above `move` up by one, from `idx` down. -/
def shiftUp (move : Nat) : Nat → List α → Result (List α)
  | 0, base => return base
  | idx + 1, base =>
      if move < idx + 1 then do
        let e ← elem base idx
        shiftUp move idx (base.set (idx + 1) e)
      else return base

/-- The index `__idx_move` that `INSERTION_SORT` finds for the last element. -/
def insertionMove (comp : α → α → Result Int) (base : List α) (target : α) : Result Nat :=
  -- `__idx_high` starts at `num - 2`, so the loop is not entered for one element.
  if 2 ≤ base.length then insertionIndex comp base target 0 (base.length - 2) else return 0

/-- `INSERTION_SORT`. -/
def insertionSort (comp : α → α → Result Int) (base : List α) : Result (List α) :=
  if base.length = 0 then return base
  else do
    let target ← elem base (base.length - 1)
    let move ← insertionMove comp base target
    if move < base.length - 1 then do
      let base' ← shiftUp move (base.length - 1) base
      return base'.set move target
    else return base

/-! ## The binary search -/

/-- The loop of `SEARCH`. -/
def searchLoop (comp : α → α → Result Int) (base : List α) (target : α)
    (low high : Nat) : Result (Option Nat) :=
  if _h : low ≤ high then do
    let elemLow ← elem base low
    let elemHigh ← elem base high
    if (← comp target elemLow) = 0 then return some low
    else if (← comp target elemHigh) = 0 then return some high
    else
      let mid := (low + high) / 2
      if _hm : mid = low ∨ mid = high then return none
      else
        let elemMid ← elem base mid
        if (← comp target elemMid) < 0 then searchLoop comp base target low mid
        else searchLoop comp base target mid high
  else return none
termination_by high - low
decreasing_by all_goals omega

/-- `SEARCH`: the index of the element found, or `none` for a null pointer. -/
def search (comp : α → α → Result Int) (base : List α) (target : α) : Result (Option Nat) :=
  -- `idx_high` is `num - 1` as a signed integer: the loop is not entered when empty.
  if base.length = 0 then return none
  else searchLoop comp base target 0 (base.length - 1)

/-! ## What the search returns -/

/-- The search stops only as the comparator does. -/
theorem searchLoop_ne_error {comp : α → α → Result Int} {base : List α} {target : α} {e : Fault}
    (hcomp : ∀ a, comp target a ≠ .error e) {low high : Nat} (hlt : high < base.length) :
    searchLoop comp base target low high ≠ .error e := by
  fun_induction searchLoop comp base target low high with
  | case1 low high hle ihLow ihHigh =>
    rw [elem_of_lt (by omega : low < base.length), elem_of_lt hlt, ok_bind, ok_bind]
    intro h
    rcases bind_eq_error.mp h with h | ⟨c, -, h⟩
    · exact hcomp _ h
    split at h
    next => cases h
    next =>
      rcases bind_eq_error.mp h with h | ⟨c', -, h⟩
      · exact hcomp _ h
      split at h
      next => cases h
      next =>
        simp only at h
        split at h
        next => cases h
        next hmid =>
          have hmid' : (low + high) / 2 < base.length := by omega
          rw [elem_of_lt hmid', ok_bind] at h
          rcases bind_eq_error.mp h with h | ⟨c'', -, h⟩
          · exact hcomp _ h
          split at h
          next => exact ihLow hmid hmid' h
          next => exact ihHigh hmid hlt h
  | case2 low high hle =>
    intro h
    cases h

theorem search_ne_error {comp : α → α → Result Int} {base : List α} {target : α} {e : Fault}
    (hcomp : ∀ a, comp target a ≠ .error e) : search comp base target ≠ .error e := by
  unfold search
  split
  next =>
    intro h
    cases h
  next hlen => exact searchLoop_ne_error hcomp (by omega)

/-- A found element compares equal to the target, whatever the order of the
array. -/
theorem searchLoop_sound {comp : α → α → Result Int} {base : List α} {target : α}
    {low high i : Nat} (h : searchLoop comp base target low high = .ok (some i)) :
    ∃ e, base[i]? = some e ∧ comp target e = .ok 0 := by
  fun_induction searchLoop comp base target low high with
  | case1 low high hle ihLow ihHigh =>
    simp only [bind_eq_ok, elem_eq_ok] at h
    obtain ⟨elemLow, hLow, elemHigh, hHigh, c, hc, h⟩ := h
    split at h
    next hzero =>
      cases h
      exact ⟨elemLow, hLow, hzero ▸ hc⟩
    next =>
      obtain ⟨c', hc', h⟩ := bind_eq_ok.mp h
      split at h
      next hzero =>
        cases h
        exact ⟨elemHigh, hHigh, hzero ▸ hc'⟩
      next =>
        split at h
        next => simp at h
        next hm =>
          simp only [bind_eq_ok] at h
          obtain ⟨elemMid, -, c'', -, h⟩ := h
          split at h
          next => exact ihLow hm h
          next => exact ihHigh hm h
  | case2 => simp at h

theorem search_sound {comp : α → α → Result Int} {base : List α} {target : α} {i : Nat}
    (h : search comp base target = .ok (some i)) :
    ∃ e, base[i]? = some e ∧ comp target e = .ok 0 := by
  unfold search at h
  split at h
  next => simp at h
  next => exact searchLoop_sound h

/-- A search of a non-empty array has compared the target with an element. -/
theorem search_compares {comp : α → α → Result Int} {base : List α} {target : α}
    {r : Option Nat} (h : search comp base target = .ok r) (hne : base ≠ []) :
    ∃ e c, e ∈ base ∧ comp target e = .ok c := by
  have hlen : 0 < base.length := List.length_pos_iff.mpr hne
  rw [search, if_neg (by omega), searchLoop, dif_pos (Nat.zero_le _)] at h
  simp only [bind_eq_ok, elem_eq_ok] at h
  obtain ⟨e, he, -, -, c, hc, -⟩ := h
  exact ⟨e, c, List.mem_of_getElem? he, hc⟩

/-- With a comparator that answers on the target, the loop returns. -/
theorem searchLoop_returns {comp : α → α → Result Int} {base : List α} {target : α}
    (hans : ∀ e ∈ base, ∃ c, comp target e = .ok c) {low high : Nat}
    (hlt : high < base.length) : ∃ r, searchLoop comp base target low high = .ok r := by
  fun_induction searchLoop comp base target low high with
  | case1 low high hle ihLow ihHigh =>
    have hlow : low < base.length := by omega
    obtain ⟨c, hc⟩ := hans _ (List.getElem_mem hlow)
    obtain ⟨c', hc'⟩ := hans _ (List.getElem_mem hlt)
    rw [elem_of_lt hlow, elem_of_lt hlt]
    simp only [ok_bind, hc, hc']
    split
    next => exact ⟨_, rfl⟩
    next =>
      split
      next => exact ⟨_, rfl⟩
      next =>
        split
        next => exact ⟨_, rfl⟩
        next hm =>
          have hmid : (low + high) / 2 < base.length := by omega
          obtain ⟨c'', hc''⟩ := hans _ (List.getElem_mem hmid)
          rw [elem_of_lt hmid]
          simp only [ok_bind, hc'']
          split
          next => exact ihLow hm hmid
          next => exact ihHigh hm hlt
  | case2 => exact ⟨_, rfl⟩

theorem search_returns {comp : α → α → Result Int} {base : List α} (target : α)
    (hans : ∀ e ∈ base, ∃ c, comp target e = .ok c) :
    ∃ r, search comp base target = .ok r := by
  unfold search
  split
  next => exact ⟨_, rfl⟩
  next => exact searchLoop_returns hans (by omega)

/-- The answers of a comparator along an array: `c i` at index `i`, first
positive, then zero, then negative. -/
structure Descends (comp : α → α → Result Int) (base : List α) (target : α)
    (c : Nat → Int) : Prop where
  answer : ∀ i e, base[i]? = some e → comp target e = .ok (c i)
  neg : ∀ i j, i < j → j < base.length → c i < 0 → c j < 0
  pos : ∀ i j, i < j → j < base.length → 0 < c j → 0 < c i

/-- On descending answers the loop returns, and returns nothing only if no
element of the window compares equal. -/
theorem searchLoop_complete {comp : α → α → Result Int} {base : List α} {target : α}
    {c : Nat → Int} (hd : Descends comp base target c) {low high : Nat}
    (hle : low ≤ high) (hlt : high < base.length) :
    ∃ r, searchLoop comp base target low high = .ok r ∧
      (r = none → ∀ i, low ≤ i → i ≤ high → c i ≠ 0) := by
  have answerAt : ∀ i (hi : i < base.length), comp target base[i] = .ok (c i) :=
    fun i hi => hd.answer i _ (List.getElem?_eq_getElem hi)
  fun_induction searchLoop comp base target low high with
  | case1 low high _ ihLow ihHigh =>
    rw [elem_of_lt (by omega : low < base.length), elem_of_lt hlt]
    simp only [ok_bind, answerAt]
    split
    next => exact ⟨_, rfl, nofun⟩
    next hlow =>
      split
      next => exact ⟨_, rfl, nofun⟩
      next hhigh =>
        split
        next hm =>
          refine ⟨_, rfl, fun _ i hi hi' => ?_⟩
          have : i = low ∨ i = high := by omega
          rcases this with rfl | rfl
          · exact hlow
          · exact hhigh
        next hm =>
          have hmid : (low + high) / 2 < base.length := by omega
          rw [elem_of_lt hmid]
          simp only [ok_bind, answerAt]
          split
          next hneg =>
            obtain ⟨r, hr, hnone⟩ := ihLow hm (by omega) hmid
            refine ⟨r, hr, fun hn i hi hi' => ?_⟩
            by_cases him : i ≤ (low + high) / 2
            · exact hnone hn i hi him
            · have := hd.neg _ i (by omega) (by omega) hneg
              omega
          next hneg =>
            obtain ⟨r, hr, hnone⟩ := ihHigh hm (by omega) hlt
            refine ⟨r, hr, fun hn i hi hi' => ?_⟩
            by_cases him : (low + high) / 2 ≤ i
            · exact hnone hn i him hi'
            · have hmne := hnone hn _ (Nat.le_refl _) (by omega)
              have := hd.pos i _ (by omega) hmid (by omega)
              omega
  | case2 low high hgt => omega

/-- On descending answers the search returns, and finds an element that
compares equal if there is one. -/
theorem search_spec {comp : α → α → Result Int} {base : List α} {target : α}
    {c : Nat → Int} (hd : Descends comp base target c) :
    ∃ r, search comp base target = .ok r ∧
      (∀ i, r = some i → i < base.length ∧ c i = 0) ∧
      (r = none → ∀ i, i < base.length → c i ≠ 0) := by
  unfold search
  split
  next hlen => exact ⟨none, rfl, nofun, fun _ i hi => by omega⟩
  next hlen =>
    obtain ⟨r, hr, hnone⟩ := searchLoop_complete hd (Nat.zero_le (base.length - 1)) (by omega)
    refine ⟨r, hr, ?_, fun hn i hi => hnone hn i (Nat.zero_le i) (by omega)⟩
    intro i hi
    subst hi
    obtain ⟨e, he, hc⟩ := searchLoop_sound hr
    rw [hd.answer i e he, Except.ok.injEq] at hc
    exact ⟨(List.getElem?_eq_some_iff.mp he).1, hc⟩

/-! ## Where the insertion sort puts the last element -/

/-- A comparator that answers on `x` against every element of `l`, both ways. -/
def Answers (comp : α → α → Result Int) (l : List α) (x : α) : Prop :=
  ∀ e ∈ l, (∃ c, comp x e = .ok c) ∧ ∃ c, comp e x = .ok c

theorem insertionIndex_bounds {comp : α → α → Result Int} {base : List α} {target : α}
    (hans : Answers comp base target) {low high : Nat} (hle : low ≤ high)
    (hlt : high < base.length) :
    ∃ m, insertionIndex comp base target low high = .ok m ∧ m ≤ high + 1 := by
  fun_induction insertionIndex comp base target low high with
  | case1 low high _ ihLow ihHigh =>
    have hlow : low < base.length := by omega
    obtain ⟨⟨c, hc⟩, -⟩ := hans _ (List.getElem_mem hlow)
    obtain ⟨-, c', hc'⟩ := hans _ (List.getElem_mem hlt)
    rw [elem_of_lt hlow, elem_of_lt hlt]
    simp only [ok_bind, hc, hc']
    split
    next => exact ⟨low, rfl, by omega⟩
    next =>
      split
      next => exact ⟨high + 1, rfl, Nat.le_refl _⟩
      next =>
        split
        next => exact ⟨(low + high) / 2 + 1, rfl, by omega⟩
        next hm =>
          have hmid : (low + high) / 2 < base.length := by omega
          obtain ⟨⟨c'', hc''⟩, -⟩ := hans _ (List.getElem_mem hmid)
          rw [elem_of_lt hmid]
          simp only [ok_bind, hc'']
          split
          next =>
            obtain ⟨m, hm', hle'⟩ := ihLow hm (by omega) hmid
            exact ⟨m, hm', by omega⟩
          next => exact ihHigh hm (by omega) hlt
  | case2 low high hgt => omega

/-- Moving up the elements between `move` and `idx`. -/
theorem shiftUp_spec (move : Nat) {idx : Nat} (base : List α) (hlt : idx < base.length) :
    ∃ base', shiftUp move idx base = .ok base' ∧ base'.length = base.length ∧
      ∀ i, base'[i]? = if move < i ∧ i ≤ idx then base[i - 1]? else base[i]? := by
  induction idx generalizing base with
  | zero => exact ⟨base, rfl, rfl, fun i => by rw [if_neg (by omega)]⟩
  | succ idx ih =>
    rw [shiftUp]
    split
    next hmove =>
      rw [elem_of_lt (by omega : idx < base.length)]
      obtain ⟨base', hb, hlen, hget⟩ := ih (base.set (idx + 1) base[idx]) (by simp; omega)
      refine ⟨base', hb, by simpa using hlen, fun i => ?_⟩
      rw [hget i]
      by_cases hi : i = idx + 1
      · subst hi
        rw [if_neg (by omega), if_pos (by omega)]
        simp [hlt, Nat.lt_of_succ_lt hlt]
      · by_cases hin : move < i ∧ i ≤ idx
        · rw [if_pos hin, if_pos (by omega), List.getElem?_set_ne (by omega)]
        · rw [if_neg hin, if_neg (by omega), List.getElem?_set_ne (by omega)]
    next hmove => exact ⟨base, rfl, rfl, fun i => by rw [if_neg (by omega)]⟩

/-- The insertion sort moves the last element to the index its loop found. -/
theorem insertionSort_eq {comp : α → α → Result Int} {l : List α} {x : α} {m : Nat}
    (hmove : insertionMove comp (l ++ [x]) x = .ok m) (hm : m ≤ l.length) :
    insertionSort comp (l ++ [x]) = .ok (l.insertIdx m x) := by
  have hlast : (l ++ [x]).length - 1 = l.length := by simp
  have htarget : elem (l ++ [x]) l.length = .ok x := by simp
  rw [insertionSort, if_neg (by simp), hlast, htarget, ok_bind, hmove, ok_bind]
  split
  next hlt =>
    obtain ⟨base', hshift, hlen, hget⟩ :=
      shiftUp_spec m (l ++ [x]) (by simp : l.length < (l ++ [x]).length)
    rw [List.length_append, List.length_singleton] at hlen
    rw [hshift, ok_bind, pure_eq_ok, Except.ok.injEq]
    apply List.ext_getElem?
    intro i
    rcases Nat.lt_trichotomy i m with hi | hi | hi
    · rw [List.getElem?_insertIdx_of_lt hi, List.getElem?_set_ne (by omega), hget,
        if_neg (by omega), List.getElem?_append_left (by omega)]
    · subst hi
      rw [List.getElem?_insertIdx_self, List.getElem?_set_self (by omega), if_pos hm]
    · rw [List.getElem?_insertIdx_of_gt hi, List.getElem?_set_ne (by omega), hget]
      by_cases hle : i ≤ l.length
      · rw [if_pos ⟨hi, hle⟩, List.getElem?_append_left (by omega)]
      · rw [if_neg (by omega), List.getElem?_eq_none (by simp; omega),
          List.getElem?_eq_none (by omega)]
  next hge =>
    rw [show m = l.length by omega, List.insertIdx_length_self]
    rfl

theorem insertionMove_append {comp : α → α → Result Int} {l : List α} {x : α}
    (h : l ≠ []) :
    insertionMove comp (l ++ [x]) x = insertionIndex comp (l ++ [x]) x 0 (l.length - 1) := by
  have := List.length_pos_iff.mpr h
  rw [insertionMove, if_pos (by simp; omega)]
  simp

/-- With a comparator that always answers, the insertion sort returns the list
with its last element moved. -/
theorem insertionSort_spec {comp : α → α → Result Int} {l : List α} {x : α}
    (hans : Answers comp (l ++ [x]) x) :
    ∃ m, m ≤ l.length ∧ insertionSort comp (l ++ [x]) = .ok (l.insertIdx m x) := by
  have hmove : ∃ m, insertionMove comp (l ++ [x]) x = .ok m ∧ m ≤ l.length := by
    by_cases h : l = []
    · subst h
      exact ⟨0, rfl, Nat.le_refl _⟩
    · have := List.length_pos_iff.mpr h
      obtain ⟨m, hm, hle⟩ := insertionIndex_bounds hans (Nat.zero_le (l.length - 1))
        (by rw [List.length_append, List.length_singleton]; omega)
      exact ⟨m, (insertionMove_append h).trans hm, by omega⟩
  obtain ⟨m, hm, hle⟩ := hmove
  exact ⟨m, hle, insertionSort_eq hm hle⟩

/-! ## Comparators that follow a key -/

variable [LinearOrder κ]

/-- On the elements of `l` the comparator answers as the order of the keys does. -/
def Follows (comp : α → α → Result Int) (key : α → κ) (l : List α) : Prop :=
  ∀ a ∈ l, ∀ b ∈ l, ∃ c, comp a b = .ok c ∧ (c < 0 ↔ key a < key b) ∧ (c = 0 ↔ key a = key b)

/-- The list is ascending in the key. -/
def Ascending (key : α → κ) (l : List α) : Prop := l.Pairwise fun a b => key a ≤ key b

theorem Ascending.le {key : α → κ} {l : List α} (hs : Ascending key l) {i j : Nat}
    (hij : i ≤ j) (hj : j < l.length) : key l[i] ≤ key l[j] := by
  rcases Nat.lt_or_eq_of_le hij with h | h
  · exact List.pairwise_iff_getElem.mp hs i j (by omega) hj h
  · subst h
    exact le_refl _

/-- The loop of the insertion sort splits an ascending array at the target. -/
theorem insertionIndex_splits {comp : α → α → Result Int} {key : α → κ} {l : List α} {x : α}
    (hf : Follows comp key (l ++ [x])) (hs : Ascending key l) {low high : Nat}
    (hle : low ≤ high) (hlt : high < l.length)
    (hbelow : ∀ i (_ : i < l.length), i < low → key l[i] ≤ key x)
    (habove : ∀ i (_ : i < l.length), high < i → key x ≤ key l[i]) :
    ∃ m, insertionIndex comp (l ++ [x]) x low high = .ok m ∧ m ≤ l.length ∧
      (∀ i (_ : i < l.length), i < m → key l[i] ≤ key x) ∧
      (∀ i (_ : i < l.length), m ≤ i → key x ≤ key l[i]) := by
  have hget : ∀ i (hi : i < l.length), elem (l ++ [x]) i = .ok l[i] := by
    intro i hi
    simp [List.getElem?_append_left hi, hi]
  have hmem : ∀ i (hi : i < l.length), l[i] ∈ l ++ [x] := fun i hi => by simp
  fun_induction insertionIndex comp (l ++ [x]) x low high with
  | case1 low high _ ihLow ihHigh =>
    obtain ⟨c, hc, hneg, hzero⟩ := hf x (by simp) _ (hmem low (by omega))
    obtain ⟨c', hc', hneg', hzero'⟩ := hf _ (hmem high hlt) x (by simp)
    rw [hget low (by omega), hget high hlt]
    simp only [ok_bind, hc, hc']
    split
    next hcle =>
      have hxl : key x ≤ key l[low] := by
        rcases Int.lt_or_eq_of_le hcle with h | h
        · exact le_of_lt (hneg.mp h)
        · exact le_of_eq (hzero.mp h)
      exact ⟨low, rfl, by omega, hbelow, fun i hi hmi => le_trans hxl (hs.le hmi hi)⟩
    next hcgt =>
      split
      next hcle' =>
        have hhx : key l[high] ≤ key x := by
          rcases Int.lt_or_eq_of_le hcle' with h | h
          · exact le_of_lt (hneg'.mp h)
          · exact le_of_eq (hzero'.mp h)
        refine ⟨high + 1, rfl, by omega, ?_, fun i hi hmi => habove i hi hmi⟩
        exact fun i hi him => le_trans (hs.le (Nat.le_of_lt_succ him) hlt) hhx
      next hcgt' =>
        -- The target lies strictly between the two ends.
        have hlx : key l[low] < key x :=
          lt_of_not_ge fun h => hcgt (by
            rcases lt_or_eq_of_le h with h | h
            · exact Int.le_of_lt (hneg.mpr h)
            · exact Int.le_of_eq (hzero.mpr h))
        have hxh : key x < key l[high] :=
          lt_of_not_ge fun h => hcgt' (by
            rcases lt_or_eq_of_le h with h | h
            · exact Int.le_of_lt (hneg'.mpr h)
            · exact Int.le_of_eq (hzero'.mpr h))
        have hne : low ≠ high := by
          rintro rfl
          exact absurd (lt_trans hlx hxh) (lt_irrefl _)
        split
        next hm =>
          have hmid : (low + high) / 2 = low := by omega
          rw [hmid]
          refine ⟨low + 1, rfl, by omega, ?_, ?_⟩
          · intro i hi him
            exact le_trans (hs.le (Nat.le_of_lt_succ him) (by omega)) (le_of_lt hlx)
          · intro i hi him
            exact le_trans (le_of_lt hxh) (hs.le (by omega) hi)
        next hm =>
          have hmid : (low + high) / 2 < l.length := by omega
          obtain ⟨c'', hc'', hneg'', -⟩ := hf x (by simp) _ (hmem _ hmid)
          rw [hget _ hmid]
          simp only [ok_bind, hc'']
          split
          next hlt' =>
            refine ihLow hm (by omega) hmid hbelow fun i hi him => ?_
            exact le_trans (le_of_lt (hneg''.mp hlt')) (hs.le (Nat.le_of_lt him) hi)
          next hge =>
            refine ihHigh hm (by omega) hlt (fun i hi him => ?_) habove
            exact le_trans (hs.le (Nat.le_of_lt him) hmid) (not_lt.mp fun h => hge (hneg''.mpr h))
  | case2 low high hgt => omega

/-- A list split at `x` stays ascending with `x` put at the split. -/
theorem Ascending.insertIdx {key : α → κ} {l : List α} {x : α} {m : Nat}
    (hs : Ascending key l) (hm : m ≤ l.length)
    (hbelow : ∀ i (_ : i < l.length), i < m → key l[i] ≤ key x)
    (habove : ∀ i (_ : i < l.length), m ≤ i → key x ≤ key l[i]) :
    Ascending key (l.insertIdx m x) := by
  unfold Ascending
  rw [List.pairwise_iff_getElem]
  intro i j hi hj hij
  rw [List.length_insertIdx_of_le_length hm] at hi hj
  rw [List.getElem_insertIdx, List.getElem_insertIdx]
  rcases Nat.lt_trichotomy i m with him | him | him
  · rw [dif_pos him]
    rcases Nat.lt_trichotomy j m with hjm | hjm | hjm
    · rw [dif_pos hjm]
      exact hs.le (Nat.le_of_lt hij) (by omega)
    · rw [dif_neg (by omega), dif_pos hjm]
      exact hbelow i (by omega) him
    · rw [dif_neg (by omega), dif_neg (by omega)]
      exact hs.le (by omega) (by omega)
  · rw [dif_neg (by omega), dif_pos him, dif_neg (by omega), dif_neg (by omega)]
    exact habove _ (by omega) (by omega)
  · rw [dif_neg (by omega), dif_neg (by omega), dif_neg (by omega), dif_neg (by omega)]
    exact hs.le (by omega) (by omega)

/-- With a comparator that follows a key, the insertion sort keeps an array
ascending. -/
theorem insertionSort_sorted {comp : α → α → Result Int} {key : α → κ} {l : List α} {x : α}
    (hf : Follows comp key (l ++ [x])) (hs : Ascending key l) :
    ∃ m, m ≤ l.length ∧ insertionSort comp (l ++ [x]) = .ok (l.insertIdx m x) ∧
      Ascending key (l.insertIdx m x) := by
  by_cases h : l = []
  · subst h
    exact ⟨0, Nat.le_refl _, insertionSort_eq rfl (Nat.le_refl _), List.pairwise_singleton ..⟩
  · have := List.length_pos_iff.mpr h
    obtain ⟨m, hmove, hm, hbelow, habove⟩ := insertionIndex_splits hf hs
      (Nat.zero_le (l.length - 1)) (by omega) (fun i _ hi => by omega) (fun i _ hi => by omega)
    exact ⟨m, hm, insertionSort_eq ((insertionMove_append h).trans hmove) hm,
      hs.insertIdx hm hbelow habove⟩

/-- With a comparator that follows a key, the answers along an ascending array
descend. -/
theorem Follows.descends {comp : α → α → Result Int} {key : α → κ} {l : List α} {x : α}
    (hf : Follows comp key (x :: l)) (hs : Ascending key l) :
    ∃ c : Nat → Int, Descends comp l x c ∧
      ∀ i (_ : i < l.length), c i = 0 ↔ key x = key l[i] := by
  have hans : ∀ i (hi : i < l.length), ∃ c, comp x l[i] = .ok c ∧
      (c < 0 ↔ key x < key l[i]) ∧ (c = 0 ↔ key x = key l[i]) :=
    fun i hi => hf x (by simp) _ (by simp)
  choose! c hc hneg hzero using hans
  refine ⟨c, ⟨?_, ?_, ?_⟩, hzero⟩
  · intro i e he
    obtain ⟨hi, rfl⟩ := List.getElem?_eq_some_iff.mp he
    exact hc i hi
  · intro i j hij hj h
    exact (hneg j hj).mpr (lt_of_lt_of_le ((hneg i (by omega)).mp h) (hs.le (Nat.le_of_lt hij) hj))
  · intro i j hij hj h
    have hlt : key l[j] < key x :=
      lt_of_le_of_ne (not_lt.mp fun hlt => by have := (hneg j hj).mpr hlt; omega)
        fun heq => by have := (hzero j hj).mpr heq.symm; omega
    have hi : i < l.length := by omega
    have hlt' : key l[i] < key x := lt_of_le_of_lt (hs.le (Nat.le_of_lt hij) hj) hlt
    have h1 : ¬ c i < 0 := fun h => absurd ((hneg i hi).mp h) (not_lt.mpr (le_of_lt hlt'))
    have h2 : c i ≠ 0 := fun h => absurd ((hzero i hi).mp h) (ne_of_gt hlt')
    omega

/-! ## The bubble sort permutes -/

theorem sortInner_perm {comp : α → α → Result Int} {idxOut idxIn : Nat} {base r : List α}
    (h : sortInner comp idxOut idxIn base = .ok r) : r.Perm base := by
  fun_induction sortInner comp idxOut idxIn base with
  | case1 idxIn base hlt ihswap ihkeep =>
    simp only [bind_eq_ok, elem_eq_ok] at h
    obtain ⟨a, ha, b, hb, c, -, h⟩ := h
    split at h
    next =>
      obtain ⟨hi, rfl⟩ := List.getElem?_eq_some_iff.mp ha
      obtain ⟨hj, rfl⟩ := List.getElem?_eq_some_iff.mp hb
      exact (ihswap _ _ h).trans (List.set_set_perm hi hj)
    next => exact ihkeep h
  | case2 idxIn base hlt =>
    obtain rfl : base = r := by simpa using h
    exact List.Perm.refl base

theorem sortOuter_perm {comp : α → α → Result Int} {idxOut : Nat} {base r : List α}
    (h : sortOuter comp idxOut base = .ok r) : r.Perm base := by
  induction idxOut generalizing base with
  | zero =>
    obtain rfl : base = r := by simpa [sortOuter] using h
    exact List.Perm.refl base
  | succ idxOut ih =>
    obtain ⟨base', hinner, houter⟩ := bind_eq_ok.mp h
    exact (ih houter).trans (sortInner_perm hinner)

/-- A sort that returned has permuted the array, whatever the comparator. -/
theorem sort_perm {comp : α → α → Result Int} {base r : List α} (h : sort comp base = .ok r) :
    r.Perm base :=
  sortOuter_perm h

/-- The sort stops only as the comparator does. -/
theorem sortInner_ne_error {comp : α → α → Result Int} {e : Fault}
    (hcomp : ∀ a b, comp a b ≠ .error e) {idxOut idxIn : Nat} {base : List α}
    (hlt : idxOut < base.length) : sortInner comp idxOut idxIn base ≠ .error e := by
  fun_induction sortInner comp idxOut idxIn base with
  | case1 idxIn base hin ihswap ihkeep =>
    rw [elem_of_lt (by omega : idxIn < base.length), elem_of_lt (by omega : idxIn + 1 < base.length),
      ok_bind, ok_bind]
    intro h
    rcases bind_eq_error.mp h with h | ⟨c, -, h⟩
    · exact hcomp _ _ h
    split at h
    next => exact ihswap _ _ (by simpa using hlt) h
    next => exact ihkeep hlt h
  | case2 idxIn base hin =>
    intro h
    cases h

theorem sort_ne_error {comp : α → α → Result Int} {e : Fault} (hcomp : ∀ a b, comp a b ≠ .error e)
    (base : List α) : sort comp base ≠ .error e := by
  have houter : ∀ (idxOut : Nat) (base : List α), idxOut ≤ base.length - 1 →
      sortOuter comp idxOut base ≠ .error e := by
    intro idxOut
    induction idxOut with
    | zero =>
      intro base _ h
      cases h
    | succ idxOut ih =>
      intro base hle h
      rcases bind_eq_error.mp h with h | ⟨base', hinner, h⟩
      · exact sortInner_ne_error hcomp (by omega) h
      · exact ih base' (by rw [(sortInner_perm hinner).length_eq]; omega) h
  exact houter _ base (Nat.le_refl _)

/-- The comparator answers on every two elements. -/
def AnswersWithin (comp : α → α → Result Int) (l : List α) : Prop :=
  ∀ a ∈ l, ∀ b ∈ l, ∃ c, comp a b = .ok c

theorem AnswersWithin.perm {comp : α → α → Result Int} {l l' : List α}
    (h : AnswersWithin comp l) (hperm : l'.Perm l) : AnswersWithin comp l' :=
  fun a ha b hb => h a (hperm.mem_iff.mp ha) b (hperm.mem_iff.mp hb)

theorem sortInner_returns {comp : α → α → Result Int} {idxOut : Nat} (idxIn : Nat)
    {base : List α} (hanswers : AnswersWithin comp base) (hout : idxOut < base.length) :
    ∃ r, sortInner comp idxOut idxIn base = .ok r := by
  fun_induction sortInner comp idxOut idxIn base with
  | case1 idxIn base hlt ihswap ihkeep =>
    have hi : idxIn < base.length := by omega
    have hj : idxIn + 1 < base.length := by omega
    obtain ⟨c, hc⟩ := hanswers _ (List.getElem_mem hi) _ (List.getElem_mem hj)
    rw [elem_of_lt hi, ok_bind, elem_of_lt hj, ok_bind, hc, ok_bind]
    split
    next =>
      exact ihswap _ _ (hanswers.perm (List.set_set_perm hi hj)) (by simpa using hout)
    next => exact ihkeep hanswers hout
  | case2 idxIn base hlt => exact ⟨base, rfl⟩

/-- A sort returns if the comparator answers. -/
theorem sort_returns {comp : α → α → Result Int} {base : List α}
    (hanswers : AnswersWithin comp base) : ∃ r, sort comp base = .ok r := by
  suffices houter : ∀ idxOut (base : List α), AnswersWithin comp base →
      idxOut ≤ base.length - 1 → ∃ r, sortOuter comp idxOut base = .ok r from
    houter _ base hanswers (Nat.le_refl _)
  intro idxOut
  induction idxOut with
  | zero => exact fun base _ _ => ⟨base, rfl⟩
  | succ idxOut ih =>
    intro base hanswers hle
    obtain ⟨r, hinner⟩ := sortInner_returns 0 hanswers
      (by omega : idxOut + 1 < base.length)
    have hperm := sortInner_perm hinner
    rw [sortOuter, hinner, ok_bind]
    exact ih r (hanswers.perm hperm) (by rw [hperm.length_eq]; omega)

/-! ## What the bubble sort does to one more element -/

theorem elem_append_cons (p : List α) (x : α) (s : List α) :
    elem (p ++ x :: s) p.length = .ok x := by
  simp

/-- The comparator answers that `a` need not move behind `b`. -/
def InOrder (comp : α → α → Result Int) (a b : α) : Prop := ∃ c ≤ 0, comp a b = .ok c

/-- The comparator answers that `a` moves behind `b`. -/
def OutOfOrder (comp : α → α → Result Int) (a b : α) : Prop := ∃ c > 0, comp a b = .ok c

/-- A pass over elements in order changes nothing. -/
theorem sortInner_inOrder {comp : α → α → Result Int} {p q s : List α} {x : α}
    (h : (q ++ [x]).Pairwise (InOrder comp)) :
    sortInner comp (p.length + q.length) p.length (p ++ (q ++ x :: s)) =
      .ok (p ++ (q ++ x :: s)) := by
  induction q generalizing p with
  | nil => rw [sortInner, if_neg (by simp)]; rfl
  | cons y q ih =>
    have hnext : ∃ z t, q ++ x :: s = z :: t ∧ InOrder comp y z := by
      cases q with
      | nil => exact ⟨x, s, rfl, (List.pairwise_cons.mp h).1 x (by simp)⟩
      | cons z q => exact ⟨z, q ++ x :: s, rfl, (List.pairwise_cons.mp h).1 z (by simp)⟩
    obtain ⟨z, t, hz, c, hc, hcomp⟩ := hnext
    have hnextElem : elem (p ++ y :: z :: t) (p.length + 1) = .ok z := by simp
    have ih' := ih (p := p ++ [y]) (List.pairwise_cons.mp h).2
    rw [List.length_append, List.length_singleton, List.append_assoc, List.singleton_append,
      Nat.add_assoc, Nat.add_comm 1, hz] at ih'
    rw [List.cons_append, hz, List.length_cons, sortInner, if_pos (by omega),
      elem_append_cons, ok_bind, hnextElem, ok_bind, hcomp, ok_bind, if_neg (by omega)]
    exact ih'

/-- A pass that ends with an element `y` behind elements in order moves `y` down
by one if it stands in the wrong order. -/
theorem sortInner_last {comp : α → α → Result Int} {p q s r : List α} {x y : α}
    (h : (q ++ [x]).Pairwise (InOrder comp))
    (hpass : sortInner comp (p.length + q.length + 1) p.length (p ++ (q ++ x :: y :: s)) = .ok r) :
    OutOfOrder comp x y ∧ r = p ++ (q ++ y :: x :: s) ∨
      InOrder comp x y ∧ r = p ++ (q ++ x :: y :: s) := by
  induction q generalizing p with
  | nil =>
    have hnextElem : elem (p ++ x :: y :: s) (p.length + 1) = .ok y := by simp
    simp only [List.nil_append, List.length_nil, Nat.add_zero] at hpass ⊢
    rw [sortInner, if_pos (by omega), elem_append_cons, ok_bind, hnextElem, ok_bind,
      bind_eq_ok] at hpass
    obtain ⟨c, hc, hpass⟩ := hpass
    split at hpass
    next hpos =>
      rw [sortInner, if_neg (by omega), pure_eq_ok, Except.ok.injEq] at hpass
      exact Or.inl ⟨⟨c, hpos, hc⟩, by simp [← hpass]⟩
    next hpos =>
      rw [sortInner, if_neg (by omega), pure_eq_ok, Except.ok.injEq] at hpass
      exact Or.inr ⟨⟨c, by omega, hc⟩, hpass.symm⟩
  | cons w q ih =>
    have hnext : ∃ z t, q ++ x :: y :: s = z :: t ∧ InOrder comp w z := by
      cases q with
      | nil => exact ⟨x, y :: s, rfl, (List.pairwise_cons.mp h).1 x (by simp)⟩
      | cons z q => exact ⟨z, q ++ x :: y :: s, rfl, (List.pairwise_cons.mp h).1 z (by simp)⟩
    obtain ⟨z, t, hz, c, hc, hcomp⟩ := hnext
    have hnextElem : elem (p ++ w :: z :: t) (p.length + 1) = .ok z := by simp
    rw [List.cons_append, hz, List.length_cons, sortInner, if_pos (by omega), elem_append_cons,
      ok_bind, hnextElem, ok_bind, hcomp, ok_bind, if_neg (by omega)] at hpass
    have ih' := ih (p := p ++ [w]) (List.pairwise_cons.mp h).2
    rw [List.length_append, List.length_singleton] at ih'
    simp only [List.append_assoc, List.singleton_append] at ih'
    rw [hz, show p.length + 1 + q.length + 1 = p.length + (q.length + 1) + 1 by omega] at ih'
    simp only [List.cons_append, hz]
    exact ih' hpass

/-- Passes over elements in order change nothing. -/
theorem sortOuter_inOrder {comp : α → α → Result Int} {q s : List α}
    (h : q.Pairwise (InOrder comp)) {idxOut : Nat} (hlt : idxOut < q.length) :
    sortOuter comp idxOut (q ++ s) = .ok (q ++ s) := by
  induction idxOut with
  | zero => rfl
  | succ idxOut ih =>
    obtain ⟨x, hx⟩ : ∃ x, q = q.take (idxOut + 1) ++ x :: q.drop (idxOut + 2) :=
      ⟨q[idxOut + 1], by simp⟩
    have hlen : (q.take (idxOut + 1)).length = idxOut + 1 := by simp; omega
    have hprefix : (q.take (idxOut + 1) ++ [x]).Pairwise (InOrder comp) := by
      rw [hx] at h
      refine h.sublist ?_
      exact (List.Sublist.refl _).append (List.singleton_sublist.mpr (by simp))
    have hpass := sortInner_inOrder (p := []) (s := q.drop (idxOut + 2) ++ s) hprefix
    rw [List.length_nil, Nat.zero_add, hlen, List.nil_append, ← List.cons_append,
      ← List.append_assoc, ← hx] at hpass
    rw [sortOuter, hpass, ok_bind]
    exact ih (by omega)

/-- The bubble sort of an array in order with one more element behind it: the
element sinks below a tail of the array that stands in the wrong order with it,
and no further. -/
theorem sortOuter_insert {comp : α → α → Result Int} {q s r : List α} {y : α}
    (h : q.Pairwise (InOrder comp)) (hsort : sortOuter comp q.length (q ++ y :: s) = .ok r) :
    ∃ q₁ q₂, q = q₁ ++ q₂ ∧ r = q₁ ++ y :: (q₂ ++ s) ∧ (∀ x ∈ q₂, OutOfOrder comp x y) ∧
      ∀ x ∈ q₁.getLast?, InOrder comp x y := by
  induction q using List.reverseRecOn generalizing s with
  | nil => exact ⟨[], [], rfl, by simpa [sortOuter] using hsort.symm, by simp, by simp⟩
  | append_singleton q x ih =>
    rw [List.length_append, List.length_singleton, sortOuter, bind_eq_ok] at hsort
    obtain ⟨r', hpass, hsort⟩ := hsort
    have hpass' : sortInner comp (([] : List α).length + q.length + 1) ([] : List α).length
        ([] ++ (q ++ x :: y :: s)) = .ok r' := by
      simpa using hpass
    rcases sortInner_last h hpass' with ⟨hout, rfl⟩ | ⟨hin, rfl⟩
    · obtain ⟨q₁, q₂, rfl, rfl, htail, hlast⟩ := ih (List.pairwise_append.mp h).1 hsort
      refine ⟨q₁, q₂ ++ [x], by simp, by simp, ?_, hlast⟩
      intro z hz
      rcases List.mem_append.mp hz with hz | hz
      · exact htail z hz
      · exact List.mem_singleton.mp hz ▸ hout
    · have hdone := sortOuter_inOrder (s := y :: s) h
        (by simp : q.length < (q ++ [x]).length)
      rw [List.append_assoc, List.singleton_append] at hdone
      rw [List.nil_append, hdone, Except.ok.injEq] at hsort
      exact ⟨q ++ [x], [], by simp, by simp [← hsort], by simp, by simpa using hin⟩

theorem sort_insert {comp : α → α → Result Int} {q r : List α} {y : α}
    (h : q.Pairwise (InOrder comp)) (hsort : sort comp (q ++ [y]) = .ok r) :
    ∃ q₁ q₂, q = q₁ ++ q₂ ∧ r = q₁ ++ y :: q₂ ∧ (∀ x ∈ q₂, OutOfOrder comp x y) ∧
      ∀ x ∈ q₁.getLast?, InOrder comp x y := by
  have hlen : (q ++ [y]).length - 1 = q.length := by simp
  rw [sort, hlen] at hsort
  obtain ⟨q₁, q₂, hq, hr, hrest⟩ := sortOuter_insert h hsort
  exact ⟨q₁, q₂, hq, by simpa using hr, hrest⟩

end Hyrule
