import Hyrule.Lib.Ownership
import Hyrule.Memory.VirtualMemory

/-!
# The buffers of a memory

Which host allocations the regions of a guest's memory own, and what a call does
to them.  The host places an allocation where nothing is live (`Allocator`).
Every call on the memory then only writes and frees buffers of the memory itself
and allocates new ones: it is a `Transfer`.  A buffer is never owned by two
regions.

`memoryView` is what a guest sees of its memory, wherever the buffers lie.
-/

namespace Hyrule

open Lib Lib.Result

/-! ## The allocator of the host -/

/-- The allocator of the host during a call: where the next allocation is put, if
it succeeds. -/
structure Allocator where
  place : HostHeap → Option HostPointer
  /-- Nothing is live where an allocation is put. -/
  free : ∀ heap p, place heap = some p → heap p = none

/-- The allocator that takes the lowest free one of the first `n` places. -/
def Allocator.lowest (n : Nat) : Allocator where
  place heap := (List.range n).find? fun p => (heap p).isNone
  free heap p h := by simpa using List.find?_some h

/-- The place that `realloc` returns.  The old one is free by then. -/
def Allocator.replace (alloc : Allocator) (heap : HostHeap) (old : Option HostPointer) :
    Option HostPointer :=
  match old with
  | none => alloc.place heap
  | some q => alloc.place (heap.free q)

/-! ## Ownership -/

/-- The number of addresses of a region. -/
def PmRegion.size (r : PmRegion) : Nat := (r.addrHigh - r.addrLow).toNat

/-- The buffer of a region, with its size. -/
def PmRegion.owned (r : PmRegion) : List (HostPointer × Nat) :=
  (r.hostBase.map fun p => (p, r.size)).toList

/-- The buffers of some regions. -/
def bases (pmrs : List PmRegion) : List (HostPointer × Nat) := pmrs.flatMap PmRegion.owned

/-- The buffers of the registered regions. -/
def VirtualMemory.bases (vm : VirtualMemory) : List (HostPointer × Nat) :=
  Hyrule.bases vm.regions.pmrOps

@[simp] theorem bases_nil : bases [] = [] := rfl

theorem bases_cons (r : PmRegion) (pmrs : List PmRegion) :
    bases (r :: pmrs) = r.owned ++ bases pmrs := rfl

theorem mem_owned {r : PmRegion} {p : HostPointer} {n : Nat} :
    (p, n) ∈ r.owned ↔ r.hostBase = some p ∧ r.size = n := by
  cases h : r.hostBase with
  | none => simp [PmRegion.owned, h]
  | some q => simp [PmRegion.owned, h, eq_comm]

theorem mem_bases {pmrs : List PmRegion} {p : HostPointer} {n : Nat} :
    (p, n) ∈ bases pmrs ↔ ∃ r ∈ pmrs, r.hostBase = some p ∧ r.size = n := by
  simp [bases, mem_owned]

theorem mem_pointers_bases {pmrs : List PmRegion} {p : HostPointer} :
    p ∈ pointers (bases pmrs) ↔ ∃ r ∈ pmrs, r.hostBase = some p := by
  rw [mem_pointers]
  constructor
  · rintro ⟨n, hn⟩
    obtain ⟨r, hr, hbase, -⟩ := mem_bases.mp hn
    exact ⟨r, hr, hbase⟩
  · rintro ⟨r, hr, hbase⟩
    exact ⟨r.size, mem_bases.mpr ⟨r, hr, hbase, rfl⟩⟩

/-- Regions whose buffers are distinct have a buffer in one slot at most. -/
theorem slot_unique {pmrs : List PmRegion} (hnodup : (pointers (bases pmrs)).Nodup) {i j : Nat}
    {r r' : PmRegion} {p : HostPointer} (hr : pmrs[i]? = some r) (hbase : r.hostBase = some p)
    (hr' : pmrs[j]? = some r') (hbase' : r'.hostBase = some p) : i = j := by
  induction pmrs generalizing i j with
  | nil => cases hr
  | cons x pmrs ih =>
    rw [bases_cons, pointers, List.map_append, List.nodup_append] at hnodup
    obtain ⟨-, hrest, hdisjoint⟩ := hnodup
    -- The first region has a buffer that none of the others has.
    have hfirst : ∀ (k : Nat) y, pmrs[k]? = some y → x.hostBase = some p → y.hostBase ≠ some p := by
      intro k y hy hx hy'
      have hxp : p ∈ pointers x.owned := mem_pointers.mpr ⟨_, mem_owned.mpr ⟨hx, rfl⟩⟩
      exact hdisjoint p hxp p (mem_pointers_bases.mpr ⟨y, List.mem_of_getElem? hy, hy'⟩) rfl
    cases i with
    | zero =>
      obtain rfl : x = r := by simpa using hr
      cases j with
      | zero => rfl
      | succ j => exact absurd hbase' (hfirst j r' (by simpa using hr') hbase)
    | succ i =>
      cases j with
      | zero =>
        obtain rfl : x = r' := by simpa using hr'
        exact absurd hbase (hfirst i r (by simpa using hr) hbase')
      | succ j => exact congrArg (· + 1) (ih hrest (by simpa using hr) (by simpa using hr'))

theorem hostBase_unique {pmrs : List PmRegion} (hnodup : (pointers (bases pmrs)).Nodup)
    {r r' : PmRegion} {p : HostPointer} (hr : r ∈ pmrs) (hbase : r.hostBase = some p)
    (hr' : r' ∈ pmrs) (hbase' : r'.hostBase = some p) : r = r' := by
  obtain ⟨i, hi⟩ := List.getElem?_of_mem hr
  obtain ⟨j, hj⟩ := List.getElem?_of_mem hr'
  obtain rfl := slot_unique hnodup hi hbase hj hbase'
  exact Option.some.inj (hi.symm.trans hj)

/-- A registration adds the buffer of the new region. -/
theorem registerPmRegionOperation_perm {t t' : RegionTable} {pmr : PmRegion}
    (h : registerPmRegionOperation t pmr = .ok t') : t'.pmrOps.Perm (pmr :: t.pmrOps) := by
  simp only [registerPmRegionOperation, bind_eq_ok, check_eq_ok] at h
  obtain ⟨_, -, ⟨⟩, -, ⟨⟩, -, sorted, hsort, -, -, -, -, ⟨⟩, -, h⟩ := h
  obtain rfl : (⟨sorted, t.stale.tail⟩ : RegionTable) = t' := by simpa using h
  exact (sort_perm hsort).trans List.perm_append_comm

theorem registerPmRegionOperation_bases {t t' : RegionTable} {pmr : PmRegion}
    (h : registerPmRegionOperation t pmr = .ok t') :
    (bases t'.pmrOps).Perm (pmr.owned ++ bases t.pmrOps) := by
  rw [← bases_cons]
  exact (registerPmRegionOperation_perm h).flatMap_right _

/-! ## What each call does to the buffers -/

variable {P : Prop} {heap heap' : HostHeap} {vm vm' : VirtualMemory}

/-- An allocation of as many bytes as a region has, which then has it as its buffer. -/
theorem preallocate_transfer (alloc : Allocator) (heap : HostHeap) {n : Nat} {r : PmRegion}
    (own : List (HostPointer × Nat))
    (hbase : r.hostBase = (heap.preallocatePhysicalMemory n (alloc.place heap)).2)
    (hsize : r.size = n) :
    Transfer Buffer.size P heap own (heap.preallocatePhysicalMemory n (alloc.place heap)).1
      (r.owned ++ own) := by
  cases hplace : alloc.place heap with
  | none =>
    rw [hplace] at hbase
    rw [PmRegion.owned, hbase]
    exact .refl heap own
  | some p =>
    rw [hplace] at hbase
    rw [PmRegion.owned, hbase, hsize]
    exact .allocate (⟨n, fun _ => 0⟩ : Buffer) (alloc.free heap p hplace)

theorem stackInit_transfer {alloc : Allocator}
    (h : stackInit heap vm (alloc.place heap) = .ok (heap', vm')) :
    Transfer Buffer.size P heap vm.bases heap' vm'.bases := by
  simp only [stackInit, bind_eq_ok, pure_eq_ok, Except.ok.injEq, Prod.mk.injEq] at h
  obtain ⟨-, -, regions, hregister, -, -, -, -, rfl, rfl⟩ := h
  refine (preallocate_transfer alloc heap _ rfl ?_).trans
    (.perm (registerPmRegionOperation_bases hregister).symm)
  exact (by decide : (defaultStackCeiling -
    (defaultStackCeiling - BitVec.ofNat 32 defaultStackSize)).toNat = defaultStackSize)

theorem heapInit_transfer {progBreak : Word} (h : heapInit vm progBreak = .ok vm') :
    Transfer Buffer.size P heap vm.bases heap vm'.bases := by
  simp only [heapInit, bind_eq_ok, pure_eq_ok, Except.ok.injEq] at h
  obtain ⟨regions, hregister, -, -, -, -, rfl⟩ := h
  exact .perm (registerPmRegionOperation_bases hregister).symm

/-- A region with a start and a length has that length. -/
theorem size_of_length (addrLow len flags : Word) (hostBase : Option HostPointer) :
    PmRegion.size ⟨addrLow, addrLow + len, flags, hostBase⟩ = len.toNat := by
  show (addrLow + len - addrLow).toNat = len.toNat
  rw [BitVec.add_comm, BitVec.add_sub_cancel]

theorem mmapSetup_transfer {alloc : Allocator} {addrLow len flags : Word}
    (h : mmapSetup heap vm addrLow len flags none (alloc.place heap) = .ok (heap', vm')) :
    Transfer Buffer.size P heap vm.bases heap' vm'.bases := by
  simp only [mmapSetup, bind_eq_ok, pure_eq_ok, Except.ok.injEq, Prod.mk.injEq] at h
  obtain ⟨regions, hregister, rfl, rfl⟩ := h
  exact (preallocate_transfer alloc heap _ rfl (size_of_length _ _ _ _)).trans
    (.perm (registerPmRegionOperation_bases hregister).symm)

theorem doMmap_transfer {alloc : Allocator} {proposalAddr len prot flags rv : Word}
    (h : doMmap heap vm proposalAddr len prot flags (alloc.place heap) =
      .ok (rv, heap', vm')) :
    Transfer Buffer.size P heap vm.bases heap' vm'.bases := by
  rcases doMmap_cases h with ⟨rfl, rfl⟩ | ⟨-, -, hsetup⟩
  · exact .refl _ _
  · exact mmapSetup_transfer hsetup

/-- A region gives up its buffer. -/
theorem reclaim_transfer (heap : HostHeap) (r : PmRegion) (own : List (HostPointer × Nat)) :
    Transfer Buffer.size P heap (r.owned ++ own) (vmaGenericReclaim heap r).1 own := by
  cases hbase : r.hostBase with
  | none =>
    simp only [vmaGenericReclaim, PmRegion.owned, hbase]
    exact .refl heap own
  | some p =>
    simp only [vmaGenericReclaim, PmRegion.owned, hbase]
    exact .free p r.size own

/-- The buffers of a table with one region brought to the front. -/
theorem bases_split {pmrs : List PmRegion} {i : Nat} {r : PmRegion} (h : pmrs[i]? = some r) :
    (bases pmrs).Perm (r.owned ++ bases (pmrs.eraseIdx i)) := by
  obtain ⟨hi, rfl⟩ := List.getElem?_eq_some_iff.mp h
  rw [← bases_cons]
  exact (List.getElem_cons_eraseIdx_perm hi).symm.flatMap_right _

theorem doMunmap_transfer {addr len rv : Word}
    (h : doMunmap heap vm addr len = .ok (rv, heap', vm')) :
    Transfer Buffer.size P heap vm.bases heap' vm'.bases := by
  rcases doMunmap_cases h with ⟨rfl, rfl, -⟩ | ⟨slot, pmr, hpmr, -, rfl, hregions, -⟩
  · exact .refl _ _
  · refine (Transfer.perm (bases_split hpmr)).trans ?_
    rw [VirtualMemory.bases, hregions]
    exact reclaim_transfer heap pmr _

/-- The buffer of a region is replaced by one of the new size.  If that fails, the region
loses the old one. -/
theorem realloc_transfer (alloc : Allocator) (heap : HostHeap) {r r' : PmRegion} {n : Nat}
    {added : Nat → Byte} (own : List (HostPointer × Nat))
    (hbase : r'.hostBase =
      (heap.realloc r.hostBase n (alloc.replace heap r.hostBase) added).2)
    (hsize : r'.size = n) :
    Transfer Buffer.size (alloc.replace heap r.hostBase ≠ none) heap (r.owned ++ own)
      (heap.realloc r.hostBase n (alloc.replace heap r.hostBase) added).1 (r'.owned ++ own) := by
  cases hplace : alloc.replace heap r.hostBase with
  | none =>
    rw [hplace] at hbase
    rw [PmRegion.owned, PmRegion.owned, hbase]
    exact .forget (List.sublist_append_right _ _) fun hne => hne rfl
  | some p =>
    rw [hplace] at hbase
    rw [PmRegion.owned, PmRegion.owned, hbase, hsize]
    cases hold : r.hostBase with
    | none =>
      rw [hold] at hplace
      exact .allocate (⟨n, added⟩ : Buffer) (alloc.free heap p hplace)
    | some q =>
      rw [hold] at hplace
      exact (Transfer.free q r.size own).trans (.allocate _ (alloc.free _ p hplace))

/-- The buffer that `call_brk` replaces. -/
def heapBase (vm : VirtualMemory) : Option HostPointer := do
  let slot ← vm.vmaHeap
  let pmr ← (vm.regions.pmrOps ++ vm.regions.stale)[slot]?
  pmr.hostBase

theorem callBrk_transfer {alloc : Allocator} {addr rv : Word} {added : Nat → Byte}
    (h : callBrk heap vm addr (alloc.replace heap (heapBase vm)) added = .ok (rv, heap', vm')) :
    Transfer Buffer.size (alloc.replace heap (heapBase vm) ≠ none) heap vm.bases heap'
      vm'.bases := by
  obtain ⟨slot, r, hslot, hr, ⟨rfl, rfl, -⟩ | ⟨hsets, rfl, rfl⟩⟩ := callBrk_cases h
  · exact .refl _ _
  · have hold : heapBase vm = r.hostBase := by
      rw [RegionTable.slot, elem_eq_ok] at hr
      simp [heapBase, hslot, hr]
    rw [hold]
    obtain ⟨hregion, hset⟩ := hsets.registered
    obtain ⟨hlt, -⟩ := List.getElem?_eq_some_iff.mp hregion
    rw [VirtualMemory.bases, VirtualMemory.bases, hset]
    have hback := bases_split (List.getElem?_set_self (a := { r with
      addrHigh := addr
      hostBase := (heap.realloc r.hostBase (addr - r.addrLow).toNat
        (alloc.replace heap r.hostBase) added).2 }) hlt)
    rw [List.eraseIdx_set_eq] at hback
    exact ((Transfer.perm (bases_split hregion)).trans
      (realloc_transfer alloc heap _ rfl rfl)).trans (.perm hback.symm)

theorem reclaimRegions_transfer (heap : HostHeap) (pmrs : List PmRegion)
    (own : List (HostPointer × Nat)) :
    Transfer Buffer.size P heap (bases pmrs ++ own) (reclaimRegions heap pmrs).1 own := by
  induction pmrs generalizing heap with
  | nil => exact .refl heap own
  | cons r pmrs ih =>
    rw [bases_cons, List.append_assoc]
    exact (reclaim_transfer heap r _).trans (ih _)

theorem reclaimVirtualMemory_transfer (heap : HostHeap) (vm : VirtualMemory) :
    Transfer Buffer.size P heap vm.bases (reclaimVirtualMemory heap vm).1
      (reclaimVirtualMemory heap vm).2.bases := by
  have h := reclaimRegions_transfer (P := P) heap vm.regions.pmrOps []
  rw [List.append_nil] at h
  exact h

/-- A store to an own buffer. -/
theorem store_transfer {p : HostPointer} {offset : Nat} {bytes : List Byte}
    {own : List (HostPointer × Nat)} (hp : p ∈ pointers own)
    (h : heap.store p offset bytes = .ok heap') :
    Transfer Buffer.size P heap own heap' own := by
  unfold HostHeap.store at h
  split at h
  next => cases h
  next b hb =>
    split at h
    next =>
      cases h
      exact .write hp hb rfl
    next => cases h

/-! ## What a guest sees -/

/-- A region with its bytes.  A byte that no buffer holds is missing. -/
structure RegionView where
  addrLow : Word
  addrHigh : Word
  flags : Word
  byte : Nat → Option Byte

/-- The byte of a buffer at an offset. -/
def Buffer.byte? (b : Buffer) (i : Nat) : Option Byte :=
  if i < b.size then some (b.byte i) else none

/-- What a guest sees of a region. -/
def PmRegion.view (heap : HostHeap) (r : PmRegion) : RegionView where
  addrLow := r.addrLow
  addrHigh := r.addrHigh
  flags := r.flags
  byte i :=
    if i < (r.addrHigh - r.addrLow).toNat then
      (r.hostBase.bind heap).bind fun b => b.byte? i
    else none

/-- What a guest sees of its memory. -/
def memoryView (heap : HostHeap) (vm : VirtualMemory) : List RegionView :=
  vm.regions.pmrOps.map (PmRegion.view heap)

/-- As long as its buffer stays as it is, a region looks the same. -/
theorem view_congr {r : PmRegion} (h : ∀ p, r.hostBase = some p → heap' p = heap p) :
    r.view heap' = r.view heap := by
  have hbind : r.hostBase.bind heap' = r.hostBase.bind heap := by
    cases hbase : r.hostBase with
    | none => rfl
    | some p => exact h p hbase
  simp only [PmRegion.view, hbind]

end Hyrule
