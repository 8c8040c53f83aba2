import Hyrule.Lib.Result
import Hyrule.Util.Sort
import Hyrule.Util.Word

/-!
# The region table

`pm_region.c`: the table of the memory regions of a guest.  `pmrOps` is the list
of the `nr_pmr_ops` registered regions.  The slots behind them keep what was
stored there before, and pointers into the table may still name them, so they
are kept in `stale`.  A pointer to a region is the index of its slot.

The callbacks of a region are left out: every region of a guest has the generic
ones of `app.c`.  The comparator is the one of the debug build.

A registration checks that the first byte of the new region is free, sorts the
table by a comparator that is no order on overlapping regions, and looks the
region up again.  Nothing here compares the new region with all the others
directly.  Still a registration that returns has put a non-empty region between
the regions below and above it (`registerPmRegionOperation_ok`).
-/

namespace Hyrule

open Lib Lib.Result

/-! ## Regions -/

/-- The place of a host allocation. -/
abbrev HostPointer := Nat

/-- `struct pm_region_operation`. -/
structure PmRegion where
  addrLow : Word
  addrHigh : Word
  flags : Word
  /-- `host_base`, if it is not null. -/
  hostBase : Option HostPointer
deriving DecidableEq, Repr

/-- The guest address lies in the region. -/
def PmRegion.Contains (r : PmRegion) (address : Word) : Prop :=
  r.addrLow ≤ address ∧ address < r.addrHigh

instance (r : PmRegion) (address : Word) : Decidable (r.Contains address) :=
  inferInstanceAs (Decidable (_ ∧ _))

/-- `MAX_NR_PM_REGIONS`, the bound of `register_pm_region_operation`. -/
def maxNrPmRegions : Nat := 256

/-- `MAX_VMA_NR`, the number of slots of the array `pmr_ops`. -/
def maxVmaNr : Nat := 128

/-- The array `pmr_ops`. -/
structure RegionTable where
  /-- The slots below `nr_pmr_ops`. -/
  pmrOps : List PmRegion
  /-- The slots from `nr_pmr_ops` on that have been written before. -/
  stale : List PmRegion

namespace RegionTable

def empty : RegionTable := ⟨[], []⟩

/-- `nr_pmr_ops`. -/
def nrPmrOps (t : RegionTable) : Nat := t.pmrOps.length

/-- The slot with an index. -/
def slot (t : RegionTable) (i : Nat) : Result PmRegion := elem (t.pmrOps ++ t.stale) i

/-- The table with the slot at an index overwritten. -/
def setSlot (t : RegionTable) (i : Nat) (r : PmRegion) : RegionTable :=
  if i < t.pmrOps.length then { t with pmrOps := t.pmrOps.set i r }
  else { t with stale := t.stale.set (i - t.pmrOps.length) r }

end RegionTable

/-! ## Lookups -/

/-- `pm_region_operation_compare`. -/
def pmRegionOperationCompare (pmr1 pmr2 : PmRegion) : Result Int := do
  check (pmr1.addrLow ≤ pmr1.addrHigh)
  check (pmr2.addrLow ≤ pmr2.addrHigh)
  if pmr1.addrHigh ≤ pmr2.addrLow then return -1
  else if pmr2.addrHigh ≤ pmr1.addrLow then return 1
  else if (pmr1.addrLow ≤ pmr2.addrLow ∧ pmr2.addrHigh ≤ pmr1.addrHigh) ∨
      (pmr2.addrLow ≤ pmr1.addrLow ∧ pmr1.addrHigh ≤ pmr2.addrHigh) then return 0
  else throw .assertion

/-- The region of one byte that a lookup compares with. -/
def lookupTarget (guestPa : Word) : PmRegion := ⟨guestPa, guestPa + 1, 0, none⟩

/-- `search_pm_region_callback`. -/
def searchPmRegionCallback (t : RegionTable) (guestPa : Word) : Result (Option Nat) :=
  search pmRegionOperationCompare t.pmrOps (lookupTarget guestPa)

/-- The loop of `is_vma_eligible` from `idx` on.  The region `vma` is given with
its slot. -/
def vmaEligibleLoop (vma : Option (Nat × PmRegion)) : Nat → List PmRegion → Bool → Result Bool
  | _, [], found => return found
  | idx, r :: rest, found => do
      let (slot, v) ← deref vma
      if idx = slot then vmaEligibleLoop vma (idx + 1) rest true
      else if v.addrLow < r.addrLow ∧ r.addrLow < v.addrHigh then return false
      else vmaEligibleLoop vma (idx + 1) rest found

/-- `is_vma_eligible`, for the region in a slot or a null pointer. -/
def isVmaEligible (t : RegionTable) : Option Nat → Result Bool
  | none => vmaEligibleLoop none 0 t.pmrOps false
  | some slot => do
      let v ← t.slot slot
      vmaEligibleLoop (some (slot, v)) 0 t.pmrOps false

/-- `is_range_eligible`. -/
def isRangeEligible (t : RegionTable) (addrLow addrHigh : Word) : Bool :=
  t.pmrOps.all fun r => r.addrHigh ≤ addrLow ∨ addrHigh ≤ r.addrLow

/-- The loop of `search_free_mmap_region` over the first `n` regions, from the
last one down. -/
def freeMmapLoop (pmrOps : List PmRegion) (len : Word) : Nat → Result Word
  | 0 => return 0
  | 1 => do
      let r ← elem pmrOps 0
      if len < r.addrLow then return r.addrLow - len else return 0
  | idx + 2 => do
      let r ← elem pmrOps (idx + 1)
      let below ← elem pmrOps idx
      if len < r.addrLow - below.addrHigh then return r.addrLow - len
      else freeMmapLoop pmrOps len (idx + 1)

/-- `search_free_mmap_region`. -/
def searchFreeMmapRegion (t : RegionTable) (size : Word) : Result Word := do
  let addrFound ← freeMmapLoop t.pmrOps (size + 4096) t.nrPmrOps
  if addrFound ≠ 0 then
    check (isRangeEligible t addrFound (addrFound + size))
  return addrFound

/-! ## Registration -/

/-- `register_pm_region_operation`. -/
def registerPmRegionOperation (t : RegionTable) (pmr : PmRegion) : Result RegionTable := do
  check ((← searchPmRegionCallback t pmr.addrLow) = none)
  check (t.nrPmrOps < maxNrPmRegions)
  let sorted ← sort pmRegionOperationCompare (t.pmrOps ++ [pmr])
  let t : RegionTable := ⟨sorted, t.stale.tail⟩
  let pmr' ← searchPmRegionCallback t pmr.addrLow
  check ((← isVmaEligible t pmr') = true)
  return t

/-- `unregister_pm_region`, for the region in a slot.  The last slot keeps its
content. -/
def unregisterPmRegion (t : RegionTable) (slot : Nat) : Result RegionTable := do
  check (slot < t.nrPmrOps)
  return ⟨t.pmrOps.eraseIdx slot, t.pmrOps.getLast?.toList ++ t.stale⟩

/-! ## What the comparator answers -/

theorem pmRegionOperationCompare_ok {a b : PmRegion} {c : Int}
    (h : pmRegionOperationCompare a b = .ok c) :
    a.addrLow ≤ a.addrHigh ∧ b.addrLow ≤ b.addrHigh ∧
      (c < 0 ↔ a.addrHigh ≤ b.addrLow) ∧
      (0 < c ↔ ¬ a.addrHigh ≤ b.addrLow ∧ b.addrHigh ≤ a.addrLow) := by
  simp only [pmRegionOperationCompare, bind_eq_ok, check_eq_ok] at h
  obtain ⟨-, ha, -, hb, h⟩ := h
  refine ⟨ha, hb, ?_⟩
  split at h
  next h1 =>
    obtain rfl : -1 = c := by simpa using h
    simp [h1]
  next h1 =>
    split at h
    next h2 =>
      obtain rfl : 1 = c := by simpa using h
      simp [h1, h2]
    next h2 =>
      split at h
      next =>
        obtain rfl : 0 = c := by simpa using h
        simp [h1, h2]
      next => cases h

/-- The comparator stops only at its assertions. -/
theorem pmRegionOperationCompare_ne_error {e : Fault} (he : e ≠ .assertion) (a b : PmRegion) :
    pmRegionOperationCompare a b ≠ .error e := by
  intro h
  rcases bind_eq_error.mp h with h | ⟨-, -, h⟩
  · exact he (check_eq_error.mp h).2
  rcases bind_eq_error.mp h with h | ⟨-, -, h⟩
  · exact he (check_eq_error.mp h).2
  split at h
  next => cases h
  next =>
    split at h
    next => cases h
    next =>
      split at h
      next => cases h
      next => exact he (Except.error.inj h).symm

theorem searchPmRegionCallback_ne_error {e : Fault} (he : e ≠ .assertion) (t : RegionTable)
    (guestPa : Word) : searchPmRegionCallback t guestPa ≠ .error e :=
  search_ne_error (pmRegionOperationCompare_ne_error he _)

/-- A comparison with the region of one byte answers where the byte lies. -/
theorem pmRegionOperationCompare_target {address : Word} {r : PmRegion}
    (haddress : address < address + 1) (hr : r.addrLow < r.addrHigh) :
    pmRegionOperationCompare (lookupTarget address) r =
      .ok (if address < r.addrLow then -1 else if r.addrHigh ≤ address then 1 else 0) := by
  have h1 : (lookupTarget address).addrLow ≤ (lookupTarget address).addrHigh := by
    simp only [lookupTarget]
    bv_omega
  have h2 : r.addrLow ≤ r.addrHigh := by bv_omega
  rw [pmRegionOperationCompare, check_true h1, ok_bind, check_true h2, ok_bind]
  show (if address + 1 ≤ r.addrLow then pure (-1) else if r.addrHigh ≤ address then pure 1
    else if (address ≤ r.addrLow ∧ r.addrHigh ≤ address + 1) ∨
      (r.addrLow ≤ address ∧ address + 1 ≤ r.addrHigh) then pure 0
    else throw .assertion : Result Int) = _
  by_cases hlow : address < r.addrLow
  · rw [if_pos (by bv_omega), if_pos hlow]
    rfl
  · rw [if_neg (by bv_omega), if_neg hlow]
    by_cases hhigh : r.addrHigh ≤ address
    · rw [if_pos hhigh, if_pos hhigh]
      rfl
    · rw [if_neg hhigh, if_neg hhigh, if_pos (Or.inr (by constructor <;> bv_omega))]
      rfl

/-! ## Tables in order -/

/-- The regions are non-empty, and each ends at or below the start of the next
ones: the table is sorted, and no two regions share an address. -/
structure RegionsInOrder (pmrOps : List PmRegion) : Prop where
  nonempty : ∀ r ∈ pmrOps, r.addrLow < r.addrHigh
  below : pmrOps.Pairwise fun a b => a.addrHigh ≤ b.addrLow

theorem regionsInOrder_nil : RegionsInOrder [] := ⟨by simp, List.Pairwise.nil⟩

theorem RegionsInOrder.inOrder {pmrOps : List PmRegion} (h : RegionsInOrder pmrOps) :
    pmrOps.Pairwise (InOrder pmRegionOperationCompare) := by
  refine h.below.imp_of_mem fun {a b} ha hb hab => ⟨-1, by decide, ?_⟩
  have h1 : a.addrLow ≤ a.addrHigh := by have := h.nonempty a ha; bv_omega
  have h2 : b.addrLow ≤ b.addrHigh := by have := h.nonempty b hb; bv_omega
  simp only [pmRegionOperationCompare, check_true h1, check_true h2, ok_bind]
  rw [if_pos hab]
  rfl

/-- A new region between the regions below and above it keeps the order. -/
theorem RegionsInOrder.insert {l₁ l₂ : List PmRegion} {r : PmRegion}
    (h : RegionsInOrder (l₁ ++ l₂)) (hr : r.addrLow < r.addrHigh)
    (h₁ : ∀ x ∈ l₁, x.addrHigh ≤ r.addrLow) (h₂ : ∀ x ∈ l₂, r.addrHigh ≤ x.addrLow) :
    RegionsInOrder (l₁ ++ r :: l₂) := by
  obtain ⟨hb₁, hb₂, hb⟩ := List.pairwise_append.mp h.below
  refine ⟨?_, List.pairwise_append.mpr ⟨hb₁, List.pairwise_cons.mpr ⟨h₂, hb₂⟩, ?_⟩⟩
  · intro x hx
    rcases List.mem_append.mp hx with hx | hx
    · exact h.nonempty x (List.mem_append_left _ hx)
    · rcases List.mem_cons.mp hx with rfl | hx
      · exact hr
      · exact h.nonempty x (List.mem_append_right _ hx)
  · intro a ha b hb'
    rcases List.mem_cons.mp hb' with rfl | hb'
    · exact h₁ a ha
    · exact hb a ha b hb'

theorem RegionsInOrder.sublist {l l' : List PmRegion} (h : RegionsInOrder l)
    (hsub : l'.Sublist l) : RegionsInOrder l' :=
  ⟨fun r hr => h.nonempty r (hsub.subset hr), h.below.sublist hsub⟩

/-- The addresses a region starts and ends at. -/
def PmRegion.bounds (r : PmRegion) : Word × Word := (r.addrLow, r.addrHigh)

/-- The order is one of the bounds alone. -/
theorem RegionsInOrder.of_bounds {l l' : List PmRegion} (h : RegionsInOrder l)
    (hbounds : l'.map PmRegion.bounds = l.map PmRegion.bounds) : RegionsInOrder l' := by
  constructor
  · intro r hr
    have hmem : r.bounds ∈ l.map PmRegion.bounds := hbounds ▸ List.mem_map_of_mem hr
    obtain ⟨x, hx, heq⟩ := List.mem_map.mp hmem
    obtain ⟨hlow, hhigh⟩ := Prod.mk.inj heq
    rw [← hlow, ← hhigh]
    exact h.nonempty x hx
  · have hbelow : (l.map PmRegion.bounds).Pairwise fun a b => a.2 ≤ b.1 :=
      List.pairwise_map.mpr h.below
    rw [← hbounds] at hbelow
    exact List.pairwise_map.mp hbelow

/-! ## What a lookup returns -/

/-- A region that is found contains the address, whatever the order of the
table. -/
theorem searchPmRegionCallback_sound {t : RegionTable} {address : Word} {i : Nat}
    (h : searchPmRegionCallback t address = .ok (some i)) :
    ∃ r, t.pmrOps[i]? = some r ∧ r.Contains address := by
  obtain ⟨r, hr, hcomp⟩ := search_sound h
  obtain ⟨h1, -, hneg, hpos⟩ := pmRegionOperationCompare_ok hcomp
  simp only [lookupTarget] at h1 hneg hpos
  refine ⟨r, hr, ?_⟩
  unfold PmRegion.Contains
  constructor <;> bv_omega

/-- The slot of a region that is found is a registered one. -/
theorem searchPmRegionCallback_slot {t : RegionTable} {address : Word} {i : Nat} {r : PmRegion}
    (h : searchPmRegionCallback t address = .ok (some i)) (hr : t.slot i = .ok r) :
    t.pmrOps[i]? = some r := by
  obtain ⟨r', hr', -⟩ := searchPmRegionCallback_sound h
  obtain ⟨hi, -⟩ := List.getElem?_eq_some_iff.mp hr'
  rwa [RegionTable.slot, elem_eq_ok, List.getElem?_append_left hi] at hr

/-- A lookup that returned has compared the address, so it is not the last one
of the address space. -/
theorem searchPmRegionCallback_lt {t : RegionTable} {address : Word} {r : Option Nat}
    (h : searchPmRegionCallback t address = .ok r) (hne : t.pmrOps ≠ []) :
    address < address + 1 := by
  obtain ⟨e, c, -, hcomp⟩ := search_compares h hne
  obtain ⟨h1, -⟩ := pmRegionOperationCompare_ok hcomp
  simp only [lookupTarget] at h1
  bv_omega

/-- The answers of a lookup along a table in order. -/
theorem lookup_descends {pmrOps : List PmRegion} {address : Word}
    (h : RegionsInOrder pmrOps) (haddress : address < address + 1) :
    ∃ c : Nat → Int, Descends pmRegionOperationCompare pmrOps (lookupTarget address) c ∧
      ∀ i (hi : i < pmrOps.length), c i = 0 ↔ pmrOps[i].Contains address := by
  have hanswers : ∀ i (hi : i < pmrOps.length), ∃ c : Int,
      pmRegionOperationCompare (lookupTarget address) pmrOps[i] = .ok c ∧
      (c < 0 ↔ address < pmrOps[i].addrLow) ∧ (0 < c ↔ pmrOps[i].addrHigh ≤ address) ∧
      (c = 0 ↔ pmrOps[i].Contains address) := by
    intro i hi
    have hr := h.nonempty _ (List.getElem_mem hi)
    refine ⟨_, pmRegionOperationCompare_target haddress hr, ?_⟩
    unfold PmRegion.Contains
    split
    next hlow => grind
    next hlow =>
      split
      next hhigh => grind
      next hhigh => grind
  choose! c hcomp hneg hpos hzero using hanswers
  have hsorted : ∀ i j (hi : i < pmrOps.length) (hj : j < pmrOps.length), i < j →
      pmrOps[i].addrHigh ≤ pmrOps[j].addrLow :=
    List.pairwise_iff_getElem.mp h.below
  refine ⟨c, ⟨?_, ?_, ?_⟩, hzero⟩
  · intro i e he
    obtain ⟨hi, rfl⟩ := List.getElem?_eq_some_iff.mp he
    exact hcomp i hi
  · intro i j hij hj hlt
    have h1 := (hneg i (by omega)).mp hlt
    have h2 := h.nonempty _ (List.getElem_mem (by omega : i < pmrOps.length))
    have h3 := hsorted i j (by omega) hj hij
    exact (hneg j hj).mpr (by bv_omega)
  · intro i j hij hj hlt
    have h1 := (hpos j hj).mp hlt
    have h2 := h.nonempty _ (List.getElem_mem hj)
    have h3 := hsorted i j (by omega) hj hij
    exact (hpos i (by omega)).mpr (by bv_omega)

/-- In a table in order, a lookup that finds nothing has missed no region. -/
theorem searchPmRegionCallback_none {t : RegionTable} {address : Word}
    (h : searchPmRegionCallback t address = .ok none) (horder : RegionsInOrder t.pmrOps) :
    ∀ r ∈ t.pmrOps, ¬ r.Contains address := by
  intro r hr hcontains
  have haddress := searchPmRegionCallback_lt h (List.ne_nil_of_mem hr)
  obtain ⟨c, hdesc, hzero⟩ := lookup_descends horder haddress
  obtain ⟨i, hi, rfl⟩ := List.getElem_of_mem hr
  obtain ⟨s, hs, -, hnone⟩ := search_spec hdesc
  obtain rfl : s = none := by
    rw [searchPmRegionCallback, hs] at h
    exact Except.ok.inj h
  exact hnone rfl i hi ((hzero i hi).mpr hcontains)

/-- In a table in order, a lookup finds the region that contains the address. -/
theorem searchPmRegionCallback_of_contains {t : RegionTable} {address : Word} {i : Nat}
    {r : PmRegion} (horder : RegionsInOrder t.pmrOps) (hr : t.pmrOps[i]? = some r)
    (hcontains : r.Contains address) : searchPmRegionCallback t address = .ok (some i) := by
  have haddress : address < address + 1 := by
    unfold PmRegion.Contains at hcontains
    bv_omega
  obtain ⟨hi, rfl⟩ := List.getElem?_eq_some_iff.mp hr
  obtain ⟨c, hdesc, hzero⟩ := lookup_descends horder haddress
  obtain ⟨found, hsearch, hsome, hnone⟩ := search_spec hdesc
  cases found with
  | none => exact absurd ((hzero i hi).mpr hcontains) (hnone rfl i hi)
  | some j =>
    obtain ⟨hj, hcj⟩ := hsome j rfl
    have hcontains' := (hzero j hj).mp hcj
    have hbelow := List.pairwise_iff_getElem.mp horder.below
    unfold PmRegion.Contains at hcontains hcontains'
    obtain rfl : j = i := by
      rcases Nat.lt_trichotomy i j with hlt | heq | hlt
      · have := hbelow i j hi hj hlt
        bv_omega
      · exact heq.symm
      · have := hbelow j i hj hi hlt
        bv_omega
    exact hsearch

/-- In a table in order, a lookup of any other address but the last one finds nothing. -/
theorem searchPmRegionCallback_of_not_contains {t : RegionTable} {address : Word}
    (horder : RegionsInOrder t.pmrOps) (haddress : address < address + 1)
    (hnot : ∀ r ∈ t.pmrOps, ¬ r.Contains address) :
    searchPmRegionCallback t address = .ok none := by
  obtain ⟨c, hdesc, hzero⟩ := lookup_descends horder haddress
  obtain ⟨found, hsearch, hsome, -⟩ := search_spec hdesc
  cases found with
  | none => exact hsearch
  | some j =>
    obtain ⟨hj, hcj⟩ := hsome j rfl
    exact absurd ((hzero j hj).mp hcj) (hnot _ (List.getElem_mem hj))

/-! ## What a registration does -/

/-- An eligible region is registered, and no other region starts inside it. -/
theorem vmaEligibleLoop_true {slot idx : Nat} {v : PmRegion} {rest : List PmRegion} {found : Bool}
    (h : vmaEligibleLoop (some (slot, v)) idx rest found = .ok true) :
    (found = true ∨ idx ≤ slot ∧ slot < idx + rest.length) ∧
      ∀ j r, rest[j]? = some r → idx + j ≠ slot →
        ¬ (v.addrLow < r.addrLow ∧ r.addrLow < v.addrHigh) := by
  induction rest generalizing idx found with
  | nil => exact ⟨Or.inl (by simpa [vmaEligibleLoop] using h), by simp⟩
  | cons r rest ih =>
    simp only [vmaEligibleLoop, deref, ok_bind] at h
    split at h
    next heq =>
      obtain ⟨-, hrest⟩ := ih h
      refine ⟨Or.inr (by simp; omega), ?_⟩
      intro j r' hj hne
      cases j with
      | zero => omega
      | succ j => exact hrest j r' (by simpa using hj) (by omega)
    next hne =>
      split at h
      next => simp at h
      next hclear =>
        obtain ⟨hfound, hrest⟩ := ih h
        refine ⟨hfound.imp_right (by simp; omega), ?_⟩
        intro j r' hj hne'
        cases j with
        | zero =>
          obtain rfl : r = r' := by simpa using hj
          exact hclear
        | succ j => exact hrest j r' (by simpa using hj) (by omega)

theorem isVmaEligible_true {t : RegionTable} {slot : Nat}
    (h : isVmaEligible t (some slot) = .ok true) :
    ∃ v, t.pmrOps[slot]? = some v ∧ ∀ j r, t.pmrOps[j]? = some r → j ≠ slot →
      ¬ (v.addrLow < r.addrLow ∧ r.addrLow < v.addrHigh) := by
  simp only [isVmaEligible, bind_eq_ok] at h
  obtain ⟨v, hv, h⟩ := h
  obtain ⟨hslot, hclear⟩ := vmaEligibleLoop_true h
  have hlt : slot < t.pmrOps.length := by simpa using hslot
  rw [RegionTable.slot, elem_eq_ok, List.getElem?_append_left hlt] at hv
  exact ⟨v, hv, fun j r hj hne => hclear j r hj (by omega)⟩

/-- The null pointer that a failed lookup returns is dereferenced. -/
theorem isVmaEligible_null {t : RegionTable} (hne : t.pmrOps ≠ []) :
    isVmaEligible t none = .error .nullDereference := by
  obtain ⟨r, rest, h⟩ := List.exists_cons_of_ne_nil hne
  rw [isVmaEligible, h]
  rfl

/-- A registration that returns has put a non-empty region between the regions
below and the regions above it. -/
theorem registerPmRegionOperation_ok {t t' : RegionTable} {pmr : PmRegion}
    (h : registerPmRegionOperation t pmr = .ok t') (horder : RegionsInOrder t.pmrOps) :
    ∃ l₁ l₂, t.pmrOps = l₁ ++ l₂ ∧ t' = ⟨l₁ ++ pmr :: l₂, t.stale.tail⟩ ∧
      pmr.addrLow < pmr.addrHigh ∧ (∀ x ∈ l₁, x.addrHigh ≤ pmr.addrLow) ∧
      ∀ x ∈ l₂, pmr.addrHigh ≤ x.addrLow := by
  simp only [registerPmRegionOperation, bind_eq_ok, check_eq_ok] at h
  obtain ⟨_, hfree, ⟨⟩, rfl, ⟨⟩, -, sorted, hsort, pmr', hfound, e, heligible, ⟨⟩, rfl, h⟩ := h
  obtain rfl : (⟨sorted, t.stale.tail⟩ : RegionTable) = t' := by simpa using h
  have hmissed := searchPmRegionCallback_none hfree horder
  obtain ⟨l₁, l₂, hl, rfl, habove, hlast⟩ := sort_insert horder.inOrder hsort
  rw [hl] at hmissed horder
  cases pmr' with
  | none =>
    rw [isVmaEligible_null (by simp)] at heligible
    cases heligible
  | some i =>
    obtain ⟨r, hr, hcontains⟩ := searchPmRegionCallback_sound hfound
    -- The only region that can hold the first byte is the new one, in its place.
    have hi : i = l₁.length := by
      rcases Nat.lt_trichotomy i l₁.length with hi | hi | hi
      · rw [List.getElem?_append_left hi] at hr
        exact absurd hcontains (hmissed r (List.mem_append_left _ (List.mem_of_getElem? hr)))
      · exact hi
      · rw [List.getElem?_append_right (by omega), List.getElem?_cons, if_neg (by omega)] at hr
        exact absurd hcontains (hmissed r (List.mem_append_right _ (List.mem_of_getElem? hr)))
    subst hi
    obtain rfl : pmr = r := by simpa using hr
    obtain ⟨v, hv, hclear⟩ := isVmaEligible_true heligible
    obtain rfl : pmr = v := by simpa using hv
    have hnonempty : pmr.addrLow < pmr.addrHigh := by
      unfold PmRegion.Contains at hcontains
      bv_omega
    refine ⟨l₁, l₂, hl, rfl, hnonempty, ?_, ?_⟩
    · rcases l₁.eq_nil_or_concat with rfl | ⟨init, last, rfl⟩
      · simp
      · rw [List.concat_eq_append] at *
        obtain ⟨c, hc, hcomp⟩ := hlast last (by simp)
        obtain ⟨-, -, hneg, hpos⟩ := pmRegionOperationCompare_ok hcomp
        have hout := hmissed last (by simp)
        have hstart := hclear init.length last (by simp) (by simp)
        have hlastNonempty := horder.nonempty last (by simp)
        have hlastBelow : last.addrHigh ≤ pmr.addrLow := by
          unfold PmRegion.Contains at hout
          by_contra hnot
          have hzero : ¬ c < 0 := fun hlt => hnot (hneg.mp hlt)
          have hzero' : ¬ pmr.addrHigh ≤ last.addrLow := fun hle => by
            have := hpos.mpr ⟨hnot, hle⟩
            omega
          bv_omega
        intro x hx
        rcases List.mem_append.mp hx with hx | hx
        · have := (List.pairwise_append.mp (List.pairwise_append.mp horder.below).1).2.2 x hx last
            (by simp)
          bv_omega
        · exact List.mem_singleton.mp hx ▸ hlastBelow
    · intro x hx
      obtain ⟨c, hc, hcomp⟩ := habove x hx
      obtain ⟨-, -, -, hpos⟩ := pmRegionOperationCompare_ok hcomp
      exact (hpos.mp hc).2

/-- A registration stops at an assertion or at a null pointer. -/
theorem registerPmRegionOperation_ne_outOfBounds (t : RegionTable) (pmr : PmRegion) :
    registerPmRegionOperation t pmr ≠ .error .outOfBounds := by
  have hloop : ∀ (vma : Option (Nat × PmRegion)) (rest : List PmRegion) (idx : Nat) (found : Bool),
      vmaEligibleLoop vma idx rest found ≠ .error .outOfBounds := by
    intro vma rest
    induction rest with
    | nil =>
      intro idx found h
      cases h
    | cons r rest ih =>
      intro idx found h
      cases vma with
      | none => cases h
      | some v =>
        simp only [vmaEligibleLoop, deref, ok_bind] at h
        split at h
        next => exact ih _ _ h
        next =>
          split at h
          next => cases h
          next => exact ih _ _ h
  intro h
  rcases bind_eq_error.mp h with h | ⟨found, -, h⟩
  · exact searchPmRegionCallback_ne_error (by decide) _ _ h
  rcases bind_eq_error.mp h with h | ⟨-, -, h⟩
  · cases (check_eq_error.mp h).2
  rcases bind_eq_error.mp h with h | ⟨-, -, h⟩
  · cases (check_eq_error.mp h).2
  rcases bind_eq_error.mp h with h | ⟨sorted, -, h⟩
  · exact sort_ne_error (pmRegionOperationCompare_ne_error (by decide)) _ h
  rcases bind_eq_error.mp h with h | ⟨found, hfound, h⟩
  · exact searchPmRegionCallback_ne_error (by decide) _ _ h
  rcases bind_eq_error.mp h with h | ⟨eligible, -, h⟩
  · cases found with
    | none => exact hloop _ _ _ _ h
    | some i =>
      -- The slot was found in the table, so it is one of the table.
      obtain ⟨r, hr, -⟩ := searchPmRegionCallback_sound hfound
      obtain ⟨hi, -⟩ := List.getElem?_eq_some_iff.mp hr
      rcases bind_eq_error.mp h with h | ⟨v, -, h⟩
      · rw [RegionTable.slot, elem_of_lt (by rw [List.length_append]; omega)] at h
        cases h
      · exact hloop _ _ _ _ h
  rcases bind_eq_error.mp h with h | ⟨-, -, h⟩
  · cases (check_eq_error.mp h).2
  · cases h

theorem RegionsInOrder.register {t t' : RegionTable} {pmr : PmRegion}
    (horder : RegionsInOrder t.pmrOps) (h : registerPmRegionOperation t pmr = .ok t') :
    RegionsInOrder t'.pmrOps := by
  obtain ⟨l₁, l₂, hl, rfl, hpmr, hbelow, habove⟩ := registerPmRegionOperation_ok h horder
  rw [hl] at horder
  exact horder.insert hpmr hbelow habove

theorem RegionsInOrder.unregister {t t' : RegionTable} {slot : Nat}
    (horder : RegionsInOrder t.pmrOps) (h : unregisterPmRegion t slot = .ok t') :
    RegionsInOrder t'.pmrOps := by
  simp only [unregisterPmRegion, bind_eq_ok, pure_eq_ok, Except.ok.injEq] at h
  obtain ⟨-, -, rfl⟩ := h
  exact horder.sublist (List.eraseIdx_sublist _ _)

/-- Moving the end of a registered region up keeps the order if no other region
starts inside it. -/
theorem RegionsInOrder.extend {t : RegionTable} {slot : Nat} {v : PmRegion}
    (horder : RegionsInOrder t.pmrOps) (hv : t.pmrOps[slot]? = some v) {r : PmRegion}
    (hlow : r.addrLow = v.addrLow) (hhigh : v.addrHigh ≤ r.addrHigh)
    (hclear : ∀ j x, t.pmrOps[j]? = some x → j ≠ slot →
      ¬ (r.addrLow < x.addrLow ∧ x.addrLow < r.addrHigh)) :
    RegionsInOrder (t.pmrOps.set slot r) := by
  obtain ⟨hslot, rfl⟩ := List.getElem?_eq_some_iff.mp hv
  obtain ⟨l₁, v, l₂, hl, hlen⟩ : ∃ l₁ v l₂, t.pmrOps = l₁ ++ v :: l₂ ∧ l₁.length = slot :=
    ⟨t.pmrOps.take slot, t.pmrOps[slot], t.pmrOps.drop (slot + 1), by simp, by simp; omega⟩
  subst hlen
  simp only [hl] at horder hlow hhigh hclear ⊢
  simp only [List.getElem_append_right (Nat.le_refl _), Nat.sub_self, List.getElem_cons_zero]
    at hlow hhigh
  rw [List.set_append_right _ _ (Nat.le_refl _), Nat.sub_self, List.set_cons_zero]
  obtain ⟨hb₁, hb₂, hb⟩ := List.pairwise_append.mp horder.below
  have hvNonempty := horder.nonempty v (by simp)
  refine (horder.sublist (List.Sublist.append_left (List.sublist_cons_self v l₂) l₁)).insert
    (by bv_omega) ?_ ?_
  · intro x hx
    have := hb x hx v (by simp)
    bv_omega
  · intro x hx
    obtain ⟨j, hj⟩ := List.getElem?_of_mem hx
    have hget : (l₁ ++ v :: l₂)[l₁.length + (j + 1)]? = some x := by
      rw [List.getElem?_append_right (by omega), Nat.add_sub_cancel_left]
      exact hj
    have hnot := hclear (l₁.length + (j + 1)) x hget (by omega)
    have hbelow := (List.pairwise_cons.mp hb₂).1 x hx
    bv_omega

/-! ## When a registration returns -/

/-- The comparator answers on two regions that are the same or apart. -/
theorem pmRegionOperationCompare_answers {a b : PmRegion} (ha : a.addrLow < a.addrHigh)
    (hb : b.addrLow < b.addrHigh)
    (hapart : a = b ∨ a.addrHigh ≤ b.addrLow ∨ b.addrHigh ≤ a.addrLow) :
    ∃ c, pmRegionOperationCompare a b = .ok c := by
  have h1 : a.addrLow ≤ a.addrHigh := by bv_omega
  have h2 : b.addrLow ≤ b.addrHigh := by bv_omega
  simp only [pmRegionOperationCompare, check_true h1, check_true h2, ok_bind]
  split
  next => exact ⟨_, rfl⟩
  next hab =>
    split
    next => exact ⟨_, rfl⟩
    next hba =>
      obtain rfl : a = b := hapart.resolve_right (by simp [hab, hba])
      rw [if_pos (Or.inl ⟨BitVec.le_refl _, BitVec.le_refl _⟩)]
      exact ⟨_, rfl⟩

theorem RegionsInOrder.answersWithin {pmrOps : List PmRegion} (h : RegionsInOrder pmrOps) :
    AnswersWithin pmRegionOperationCompare pmrOps := by
  intro a ha b hb
  refine pmRegionOperationCompare_answers (h.nonempty a ha) (h.nonempty b hb) ?_
  obtain ⟨i, hi, rfl⟩ := List.getElem_of_mem ha
  obtain ⟨j, hj, rfl⟩ := List.getElem_of_mem hb
  have hbelow := List.pairwise_iff_getElem.mp h.below
  rcases Nat.lt_trichotomy i j with hlt | rfl | hlt
  · exact Or.inr (Or.inl (hbelow i j hi hj hlt))
  · exact Or.inl rfl
  · exact Or.inr (Or.inr (hbelow j i hj hi hlt))

theorem vmaEligibleLoop_of_clear {slot idx : Nat} {v : PmRegion} {rest : List PmRegion}
    {found : Bool} (hslot : found = true ∨ idx ≤ slot ∧ slot < idx + rest.length)
    (hclear : ∀ j r, rest[j]? = some r → idx + j ≠ slot →
      ¬ (v.addrLow < r.addrLow ∧ r.addrLow < v.addrHigh)) :
    vmaEligibleLoop (some (slot, v)) idx rest found = .ok true := by
  induction rest generalizing idx found with
  | nil =>
    have hfound : found = true := hslot.resolve_right (by simp)
    rw [hfound]
    rfl
  | cons r rest ih =>
    have hrest : ∀ j r', rest[j]? = some r' → idx + 1 + j ≠ slot →
        ¬ (v.addrLow < r'.addrLow ∧ r'.addrLow < v.addrHigh) :=
      fun j r' hj hne => hclear (j + 1) r' (by simpa using hj) (by omega)
    simp only [vmaEligibleLoop, deref, ok_bind]
    split
    next => exact ih (Or.inl rfl) hrest
    next hne =>
      rw [if_neg (hclear 0 r (by simp) (by omega))]
      exact ih (hslot.imp_right (by simp; omega)) hrest

/-- The sort puts a region that is apart from the others into the only place that keeps
the order. -/
theorem sort_eq_of_apart {pmrOps sorted sorted' : List PmRegion} {pmr : PmRegion}
    (horder : RegionsInOrder pmrOps) (hpmr : pmr.addrLow < pmr.addrHigh)
    (hapart : ∀ x ∈ pmrOps, x.addrHigh ≤ pmr.addrLow ∨ pmr.addrHigh ≤ x.addrLow)
    (horder' : RegionsInOrder sorted') (hperm : (pmrOps ++ [pmr]).Perm sorted')
    (hsort : sort pmRegionOperationCompare (pmrOps ++ [pmr]) = .ok sorted) :
    sorted = sorted' := by
  have hsorted := (sort_perm hsort).trans hperm
  obtain ⟨q₁, q₂, rfl, rfl, hq₂, hlast⟩ := sort_insert horder.inOrder hsort
  have habove : ∀ x ∈ q₂, pmr.addrHigh ≤ x.addrLow := by
    intro x hx
    obtain ⟨c, hc, hcomp⟩ := hq₂ x hx
    exact ((pmRegionOperationCompare_ok hcomp).2.2.2.mp hc).2
  have hbelow : ∀ x ∈ q₁, x.addrHigh ≤ pmr.addrLow := by
    rcases q₁.eq_nil_or_concat with rfl | ⟨init, last, rfl⟩
    · simp
    · rw [List.concat_eq_append] at *
      obtain ⟨c, hc, hcomp⟩ := hlast last (by simp)
      have hlastBelow : last.addrHigh ≤ pmr.addrLow := by
        by_contra hnot
        have hpos := (pmRegionOperationCompare_ok hcomp).2.2.2.mpr
          ⟨hnot, (hapart last (by simp)).resolve_left hnot⟩
        omega
      intro x hx
      rcases List.mem_append.mp hx with hx | hx
      · have hxLast := (List.pairwise_append.mp (List.pairwise_append.mp horder.below).1).2.2
          x hx last (by simp)
        have hnonempty := horder.nonempty last (by simp)
        bv_omega
      · exact List.mem_singleton.mp hx ▸ hlastBelow
  have hinserted := horder.insert hpmr hbelow habove
  refine List.Perm.eq_of_pairwise ?_ hinserted.below horder'.below hsorted
  intro a b ha hb hab hba
  have ha := hinserted.nonempty a ha
  have hb := horder'.nonempty b hb
  bv_omega

/-- A range that is apart from the regions lies between those below and those above it. -/
theorem RegionsInOrder.split {pmrOps : List PmRegion} (h : RegionsInOrder pmrOps) {low high : Word}
    (hapart : ∀ x ∈ pmrOps, x.addrHigh ≤ low ∨ high ≤ x.addrLow) :
    ∃ l₁ l₂, pmrOps = l₁ ++ l₂ ∧ (∀ x ∈ l₁, x.addrHigh ≤ low) ∧ ∀ x ∈ l₂, high ≤ x.addrLow := by
  induction pmrOps with
  | nil => exact ⟨[], [], rfl, by simp, by simp⟩
  | cons r rest ih =>
    have hbelow := (List.pairwise_cons.mp h.below).1
    rcases hapart r List.mem_cons_self with hr | hr
    · obtain ⟨l₁, l₂, rfl, h₁, h₂⟩ := ih (h.sublist (List.sublist_cons_self r rest))
        fun x hx => hapart x (List.mem_cons_of_mem r hx)
      refine ⟨r :: l₁, l₂, rfl, ?_, h₂⟩
      intro x hx
      rcases List.mem_cons.mp hx with rfl | hx
      · exact hr
      · exact h₁ x hx
    · refine ⟨[], r :: rest, rfl, by simp, ?_⟩
      intro x hx
      rcases List.mem_cons.mp hx with rfl | hx
      · exact hr
      · have hrNonempty := h.nonempty r List.mem_cons_self
        have hxAbove := hbelow x hx
        bv_omega

/-- A non-empty region between those below and those above it is registered there. -/
theorem registerPmRegionOperation_returns {l₁ l₂ stale : List PmRegion} {pmr : PmRegion}
    (horder : RegionsInOrder (l₁ ++ l₂)) (hpmr : pmr.addrLow < pmr.addrHigh)
    (hbelow : ∀ x ∈ l₁, x.addrHigh ≤ pmr.addrLow) (habove : ∀ x ∈ l₂, pmr.addrHigh ≤ x.addrLow)
    (hroom : (l₁ ++ l₂).length < maxNrPmRegions) :
    registerPmRegionOperation ⟨l₁ ++ l₂, stale⟩ pmr = .ok ⟨l₁ ++ pmr :: l₂, stale.tail⟩ := by
  have hnew := horder.insert hpmr hbelow habove
  have hself : pmr.Contains pmr.addrLow := ⟨BitVec.le_refl _, hpmr⟩
  have hapart : ∀ x ∈ l₁ ++ l₂, x.addrHigh ≤ pmr.addrLow ∨ pmr.addrHigh ≤ x.addrLow := by
    intro x hx
    rcases List.mem_append.mp hx with hx | hx
    · exact Or.inl (hbelow x hx)
    · exact Or.inr (habove x hx)
  have hfree : searchPmRegionCallback ⟨l₁ ++ l₂, stale⟩ pmr.addrLow = .ok none := by
    refine searchPmRegionCallback_of_not_contains horder (by bv_omega) ?_
    intro r hr hcontains
    have hnonempty := horder.nonempty r hr
    unfold PmRegion.Contains at hcontains
    rcases hapart r hr with hr | hr
    · bv_omega
    · bv_omega
  have hperm : (l₁ ++ l₂ ++ [pmr]).Perm (l₁ ++ pmr :: l₂) := by
    rw [List.append_assoc]
    exact (List.perm_append_singleton pmr l₂).append_left l₁
  obtain ⟨sorted, hsort⟩ := sort_returns (hnew.answersWithin.perm hperm)
  obtain rfl := sort_eq_of_apart horder hpmr hapart hnew hperm hsort
  have hfound : searchPmRegionCallback ⟨l₁ ++ pmr :: l₂, stale.tail⟩ pmr.addrLow =
      .ok (some l₁.length) :=
    searchPmRegionCallback_of_contains hnew (by simp) hself
  have heligible : isVmaEligible ⟨l₁ ++ pmr :: l₂, stale.tail⟩ (some l₁.length) = .ok true := by
    have hslot : RegionTable.slot ⟨l₁ ++ pmr :: l₂, stale.tail⟩ l₁.length = .ok pmr := by
      rw [RegionTable.slot, elem_eq_ok]
      simp
    rw [isVmaEligible, hslot, ok_bind]
    refine vmaEligibleLoop_of_clear (Or.inr ⟨Nat.zero_le _, by simp⟩) ?_
    intro j r hj hne hinside
    have hr : r ∈ l₁ ++ l₂ := by
      have herase : ((l₁ ++ pmr :: l₂).eraseIdx l₁.length) = l₁ ++ l₂ := by
        rw [List.eraseIdx_append_of_length_le (Nat.le_refl _), Nat.sub_self]
        rfl
      rw [← herase]
      exact List.mem_eraseIdx_iff_getElem?.mpr ⟨j, by omega, hj⟩
    have hnonempty := horder.nonempty r hr
    rcases hapart r hr with hr | hr
    · bv_omega
    · bv_omega
  have hroom' : RegionTable.nrPmrOps ⟨l₁ ++ l₂, stale⟩ < maxNrPmRegions := hroom
  rw [registerPmRegionOperation, hfree, ok_bind, check_true rfl, ok_bind, check_true hroom',
    ok_bind, hsort, ok_bind]
  simp only [hfound, ok_bind, heligible]
  rw [check_true trivial]
  rfl

end Hyrule
