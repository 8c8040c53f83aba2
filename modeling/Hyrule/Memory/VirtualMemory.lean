import Hyrule.Lib.Transition
import Hyrule.Memory.Host

/-!
# The memory of a guest

The part of `struct virtual_machine` that `CLONE_VM` shares, with the functions
that change it: the start-up regions of `app.c`, `mmap` and `munmap` of `vfs.c`,
`brk` of `syscall.c` and the reclaim of `task.c`.  `vma_heap` and `vma_stack`
are slots of the region table.  They name a slot, not a region: a registration
or a removal moves other regions into it.

`regionTable_sortedDisjoint` is the invariant of the table over every run of
these functions: as long as each call returns, the regions are non-empty, sorted
and disjoint.
-/

namespace Hyrule

open Lib Lib.Result

/-! ## The state -/

/-- The fields under `CLONE_VM`. -/
structure VirtualMemory where
  regions : RegionTable
  vmaHeap : Option Nat
  vmaStack : Option Nat

/-- The memory of a zeroed `struct virtual_machine`. -/
def VirtualMemory.empty : VirtualMemory := ⟨.empty, none, none⟩

/-- `-ENOMEM`. -/
def enomem : Word := BitVec.ofInt 32 (-12)

/-- `-EINVAL`. -/
def einval : Word := BitVec.ofInt 32 (-22)

/-- `PROGRAM_READ`, `PROGRAM_WRITE` and `PROGRAM_EXECUTE`. -/
def programRead : Word := 4
def programWrite : Word := 2
def programExecute : Word := 1

/-! ## Start-up -/

/-- `DEFAULT_STACK_SIZE`. -/
def defaultStackSize : Nat := 1024 * 1024 * 8

/-- `DEFAULT_STACK_CELIING`. -/
def defaultStackCeiling : Word := 0xE0000000

/-- `stack_init`, but for the stack pointer. -/
def stackInit (heap : HostHeap) (vm : VirtualMemory) (rc : Option HostPointer) :
    Result (HostHeap × VirtualMemory) := do
  let (heap, hostStackBase) := heap.preallocatePhysicalMemory defaultStackSize rc
  check (hostStackBase ≠ none)
  let pmr : PmRegion :=
    { addrLow := defaultStackCeiling - BitVec.ofNat 32 defaultStackSize
      addrHigh := defaultStackCeiling
      flags := programRead ||| programWrite
      hostBase := hostStackBase }
  let regions ← registerPmRegionOperation vm.regions pmr
  let vmaStack ← searchPmRegionCallback regions pmr.addrLow
  check (vmaStack ≠ none)
  return (heap, { vm with regions, vmaStack })

/-- `heap_init`.  The heap starts with one byte and no host memory. -/
def heapInit (vm : VirtualMemory) (proposedProgBreak : Word) : Result VirtualMemory := do
  let progBreak := (proposedProgBreak + 4096 * 16) &&& ~~~4095
  let pmr : PmRegion :=
    { addrLow := progBreak - 1
      addrHigh := progBreak
      flags := programRead ||| programWrite
      hostBase := none }
  let regions ← registerPmRegionOperation vm.regions pmr
  let vmaHeap ← searchPmRegionCallback regions (progBreak - 1)
  check (vmaHeap ≠ none)
  return { vm with regions, vmaHeap }

/-! ## Mapping -/

/-- `mmap_setup`. -/
def mmapSetup (heap : HostHeap) (vm : VirtualMemory) (addrLow len flags : Word)
    (hostBase rc : Option HostPointer) : Result (HostHeap × VirtualMemory) := do
  let (heap, hostBase) := match hostBase with
    | none => heap.preallocatePhysicalMemory len.toNat rc
    | some p => (heap, some p)
  let regions ← registerPmRegionOperation vm.regions ⟨addrLow, addrLow + len, flags, hostBase⟩
  return (heap, { vm with regions })

/-- `PAGE_ROUNDUP`. -/
def pageRoundup (addr : Word) : Word :=
  if addr &&& 4095 ≠ 0 then (addr &&& ~~~4095) + 4096 else addr

/-- The address that `allocate_mmap_region` maps at, if there is one. -/
def eligibleAddress (t : RegionTable) (proposalAddr len : Word) : Result (Option Word) := do
  if proposalAddr ≠ 0 ∧
      isRangeEligible t (pageRoundup proposalAddr) (pageRoundup proposalAddr + len) then
    return some (pageRoundup proposalAddr)
  else
    let addrFound ← searchFreeMmapRegion t len
    if addrFound ≠ 0 then return some (pageRoundup addrFound) else return none

/-- `allocate_mmap_region`. -/
def allocateMmapRegion (heap : HostHeap) (vm : VirtualMemory) (proposalAddr len mprot : Word)
    (rc : Option HostPointer) : Result (Word × HostHeap × VirtualMemory) := do
  match ← eligibleAddress vm.regions proposalAddr len with
  | none => return (enomem, heap, vm)
  | some addrLow => return (addrLow, ← mmapSetup heap vm addrLow len mprot none rc)

/-- `MAP_ANONYMOUS`. -/
def mapAnonymous : Word := 0x20

/-- The `mprot` of `do_mmap`.  It is read off the flags, not off `prot`. -/
def mprotOfFlags (flags : Word) : Word :=
  (if flags &&& 1 ≠ 0 then programRead else 0) |||
  (if flags &&& 2 ≠ 0 then programWrite else 0) |||
  (if flags &&& 4 ≠ 0 then programExecute else 0)

/-- `do_mmap`.  A mapping of a file is not supported. -/
def doMmap (heap : HostHeap) (vm : VirtualMemory) (proposalAddr len _prot flags : Word)
    (rc : Option HostPointer) : Result (Word × HostHeap × VirtualMemory) :=
  if len = 0 then return (einval, heap, vm)
  else if flags &&& mapAnonymous ≠ 0 then
    allocateMmapRegion heap vm proposalAddr len (mprotOfFlags flags) rc
  else throw .assertion

/-- `do_munmap`. -/
def doMunmap (heap : HostHeap) (vm : VirtualMemory) (addr len : Word) :
    Result (Word × HostHeap × VirtualMemory) := do
  match ← searchPmRegionCallback vm.regions addr with
  | none => return (einval, heap, vm)
  | some slot =>
      let pmr ← vm.regions.slot slot
      if pmr.addrHigh - pmr.addrLow ≠ len then return (einval, heap, vm)
      else
        let (heap, pmr) := vmaGenericReclaim heap pmr
        let regions ← unregisterPmRegion (vm.regions.setSlot slot pmr) slot
        return (0, heap, { vm with regions })

/-! ## The program break -/

/-- `call_brk`, with what `realloc` returns and adds. -/
def callBrk (heap : HostHeap) (vm : VirtualMemory) (addr : Word) (rc : Option HostPointer)
    (added : Nat → Byte) : Result (Word × HostHeap × VirtualMemory) := do
  let slot ← deref vm.vmaHeap
  let vmaHeap ← vm.regions.slot slot
  if addr = 0 ∨ addr ≤ vmaHeap.addrHigh then return (vmaHeap.addrHigh, heap, vm)
  else
    let vmaHeap := { vmaHeap with addrHigh := addr }
    let eligible ← isVmaEligible (vm.regions.setSlot slot vmaHeap) (some slot)
    -- The old end is put back.
    if eligible = false then return (enomem, heap, vm)
    else
      let (heap, hostBase) :=
        heap.realloc vmaHeap.hostBase (vmaHeap.addrHigh - vmaHeap.addrLow).toNat rc added
      let regions := vm.regions.setSlot slot { vmaHeap with hostBase }
      if hostBase = none then return (enomem, heap, { vm with regions })
      else return (addr, heap, { vm with regions })

/-! ## Reclaiming -/

/-- The loop of `reclaim_virtual_memory` over the regions. -/
def reclaimRegions : HostHeap → List PmRegion → HostHeap × List PmRegion
  | heap, [] => (heap, [])
  | heap, pmr :: rest =>
      let (heap, pmr) := vmaGenericReclaim heap pmr
      let (heap, rest) := reclaimRegions heap rest
      (heap, pmr :: rest)

/-- `reclaim_virtual_memory` of a task that owns its memory. -/
def reclaimVirtualMemory (heap : HostHeap) (vm : VirtualMemory) : HostHeap × VirtualMemory :=
  let (heap, slots) := reclaimRegions heap vm.regions.pmrOps
  (heap, ⟨⟨[], slots ++ vm.regions.stale⟩, none, none⟩)

/-! ## Runs -/

/-- A call on the memory of a guest, with the choices of the host. -/
inductive MemoryCall where
  | registerPmRegion (pmr : PmRegion)
  | stackInit (rc : Option HostPointer)
  | heapInit (proposedProgBreak : Word)
  | mmapSetup (addrLow len flags : Word) (hostBase rc : Option HostPointer)
  | mmap (proposalAddr len prot flags : Word) (rc : Option HostPointer)
  | munmap (addr len : Word)
  | unregisterPmRegion (slot : Nat)
  | brk (addr : Word) (rc : Option HostPointer) (added : Nat → Byte)
  | reclaim

/-- The state after a call, if it returns. -/
def MemoryCall.run (heap : HostHeap) (vm : VirtualMemory) :
    MemoryCall → Result (HostHeap × VirtualMemory)
  | .registerPmRegion pmr => do
      return (heap, { vm with regions := ← registerPmRegionOperation vm.regions pmr })
  | .stackInit rc => Hyrule.stackInit heap vm rc
  | .heapInit proposedProgBreak => return (heap, ← Hyrule.heapInit vm proposedProgBreak)
  | .mmapSetup addrLow len flags hostBase rc =>
      Hyrule.mmapSetup heap vm addrLow len flags hostBase rc
  | .mmap proposalAddr len prot flags rc =>
      return (← doMmap heap vm proposalAddr len prot flags rc).2
  | .munmap addr len => return (← doMunmap heap vm addr len).2
  | .unregisterPmRegion slot => do
      return (heap, { vm with regions := ← Hyrule.unregisterPmRegion vm.regions slot })
  | .brk addr rc added => return (← callBrk heap vm addr rc added).2
  | .reclaim => return reclaimVirtualMemory heap vm

/-- The runs from an empty table in which every call returns. -/
def memoryRuns : System (HostHeap × VirtualMemory) MemoryCall where
  init s := s.2 = .empty
  step s call s' := call.run s.1 s.2 = .ok s'

/-! ## What a call does -/

section Cases

variable {heap heap' : HostHeap} {vm vm' : VirtualMemory} {rv : Word}

/-- `do_mmap` fails and changes nothing, or it sets up a region at the eligible address. -/
theorem doMmap_cases {proposalAddr len prot flags : Word} {rc : Option HostPointer}
    (h : doMmap heap vm proposalAddr len prot flags rc = .ok (rv, heap', vm')) :
    (heap' = heap ∧ vm' = vm) ∨
      (len ≠ 0 ∧ eligibleAddress vm.regions proposalAddr len = .ok (some rv) ∧
        mmapSetup heap vm rv len (mprotOfFlags flags) none rc = .ok (heap', vm')) := by
  unfold doMmap at h
  split at h
  next =>
    cases h
    exact Or.inl ⟨rfl, rfl⟩
  next hlen =>
    split at h
    next =>
      obtain ⟨found, heligible, h⟩ := bind_eq_ok.mp h
      cases found with
      | none =>
        cases h
        exact Or.inl ⟨rfl, rfl⟩
      | some addrLow =>
        obtain ⟨⟨heap₁, vm₁⟩, hsetup, h⟩ := bind_eq_ok.mp h
        cases h
        exact Or.inr ⟨hlen, heligible, hsetup⟩
    next => cases h

/-- `mmap_setup` registers a region. -/
theorem mmapSetup_ok {addrLow len flags : Word} {hostBase rc : Option HostPointer}
    (h : mmapSetup heap vm addrLow len flags hostBase rc = .ok (heap', vm')) :
    ∃ base, registerPmRegionOperation vm.regions ⟨addrLow, addrLow + len, flags, base⟩ =
        .ok vm'.regions ∧
      vm'.vmaHeap = vm.vmaHeap ∧ vm'.vmaStack = vm.vmaStack := by
  simp only [mmapSetup, bind_eq_ok, pure_eq_ok, Except.ok.injEq, Prod.mk.injEq] at h
  obtain ⟨regions, hregister, -, rfl⟩ := h
  exact ⟨_, hregister, rfl, rfl⟩

/-- An anonymous mapping at a free hint returns. -/
theorem doMmap_returns {proposalAddr len prot flags : Word} {rc : Option HostPointer}
    (horder : RegionsInOrder vm.regions.pmrOps) (hhint : proposalAddr ≠ 0)
    (hpage : proposalAddr &&& 4095 = 0) (hlen : proposalAddr < proposalAddr + len)
    (hfree : ∀ r ∈ vm.regions.pmrOps,
      r.addrHigh ≤ proposalAddr ∨ proposalAddr + len ≤ r.addrLow)
    (hroom : vm.regions.nrPmrOps < maxNrPmRegions) (hflags : flags &&& mapAnonymous ≠ 0) :
    ∃ heap' vm' base, doMmap heap vm proposalAddr len prot flags rc =
        .ok (proposalAddr, heap', vm') ∧
      vm'.regions.pmrOps.Perm
        (⟨proposalAddr, proposalAddr + len, mprotOfFlags flags, base⟩ :: vm.regions.pmrOps) := by
  obtain ⟨l₁, l₂, hl, hbelow, habove⟩ := horder.split hfree
  have hlen' : len ≠ 0 := by
    rintro rfl
    bv_omega
  have hround : pageRoundup proposalAddr = proposalAddr := by
    rw [pageRoundup, if_neg (by rw [hpage]; simp)]
  have heligible : isRangeEligible vm.regions proposalAddr (proposalAddr + len) = true := by
    simpa [isRangeEligible] using hfree
  have haddress : eligibleAddress vm.regions proposalAddr len = .ok (some proposalAddr) := by
    rw [eligibleAddress, hround, if_pos ⟨hhint, heligible⟩]
    rfl
  have hregister : ∀ base, registerPmRegionOperation vm.regions
      ⟨proposalAddr, proposalAddr + len, mprotOfFlags flags, base⟩ =
        .ok ⟨l₁ ++ ⟨proposalAddr, proposalAddr + len, mprotOfFlags flags, base⟩ :: l₂,
          vm.regions.stale.tail⟩ := by
    intro base
    have htable : vm.regions = ⟨l₁ ++ l₂, vm.regions.stale⟩ := by rw [← hl]
    rw [hl] at horder
    rw [RegionTable.nrPmrOps, hl] at hroom
    rw [htable]
    exact registerPmRegionOperation_returns horder hlen hbelow habove hroom
  rw [doMmap, if_neg hlen', if_pos hflags, allocateMmapRegion, haddress, ok_bind]
  simp only [mmapSetup, hregister, ok_bind, pure_eq_ok]
  refine ⟨_, _, (heap.preallocatePhysicalMemory len.toNat rc).2, rfl, ?_⟩
  rw [hl]
  exact List.perm_middle

/-- `do_munmap` finds no region of the length and changes nothing, or it takes a region out
of the table. -/
theorem doMunmap_cases {addr len : Word} (h : doMunmap heap vm addr len = .ok (rv, heap', vm')) :
    (heap' = heap ∧ vm' = vm ∧ rv = einval ∧
      ∀ slot pmr, searchPmRegionCallback vm.regions addr = .ok (some slot) →
        vm.regions.slot slot = .ok pmr → pmr.addrHigh - pmr.addrLow ≠ len) ∨
      ∃ slot pmr, vm.regions.pmrOps[slot]? = some pmr ∧ pmr.Contains addr ∧
        heap' = (vmaGenericReclaim heap pmr).1 ∧
        vm'.regions.pmrOps = vm.regions.pmrOps.eraseIdx slot ∧
        vm'.vmaHeap = vm.vmaHeap ∧ vm'.vmaStack = vm.vmaStack ∧
        pmr.addrHigh - pmr.addrLow = len ∧ rv = 0 := by
  obtain ⟨found, hsearch, h⟩ := bind_eq_ok.mp h
  cases found with
  | none =>
    cases h
    refine Or.inl ⟨rfl, rfl, rfl, fun slot pmr hfound => ?_⟩
    cases hsearch.symm.trans hfound
  | some slot =>
    obtain ⟨pmr, hpmr, h⟩ := bind_eq_ok.mp h
    split at h
    next hlen =>
      cases h
      refine Or.inl ⟨rfl, rfl, rfl, fun slot' pmr' hfound hpmr' => ?_⟩
      cases hsearch.symm.trans hfound
      cases hpmr.symm.trans hpmr'
      exact hlen
    next hlen =>
      replace hpmr := searchPmRegionCallback_slot hsearch hpmr
      obtain ⟨r, hr, hcontains⟩ := searchPmRegionCallback_sound hsearch
      obtain rfl := Option.some.inj (hpmr.symm.trans hr)
      obtain ⟨hslot, -⟩ := List.getElem?_eq_some_iff.mp hpmr
      obtain ⟨regions, hunregister, h⟩ := bind_eq_ok.mp h
      cases h
      simp only [unregisterPmRegion, bind_eq_ok, pure_eq_ok, Except.ok.injEq] at hunregister
      obtain ⟨-, -, rfl⟩ := hunregister
      refine Or.inr ⟨slot, pmr, hpmr, hcontains, rfl, ?_, rfl, rfl, not_not.mp hlen, rfl⟩
      simp only [RegionTable.setSlot, if_pos hslot, List.eraseIdx_set_eq]

/-- The break is set: the address is above the end of the region in the slot of the heap,
and no other region starts in between. -/
structure SetsBreak (vm : VirtualMemory) (addr : Word) (slot : Nat) (r : PmRegion) : Prop where
  handle : vm.vmaHeap = some slot
  region : vm.regions.slot slot = .ok r
  above : r.addrHigh < addr
  eligible : isVmaEligible (vm.regions.setSlot slot { r with addrHigh := addr }) (some slot) =
    .ok true

/-- `call_brk` returns the end of the region in the slot of the heap, or it fails, or it
moves that end and the buffer. -/
theorem callBrk_cases {addr : Word} {rc : Option HostPointer} {added : Nat → Byte}
    (h : callBrk heap vm addr rc added = .ok (rv, heap', vm')) :
    ∃ slot r, vm.vmaHeap = some slot ∧ vm.regions.slot slot = .ok r ∧
      ((heap' = heap ∧ vm' = vm ∧ ¬ SetsBreak vm addr slot r) ∨
        SetsBreak vm addr slot r ∧
        heap' = (heap.realloc r.hostBase (addr - r.addrLow).toNat rc added).1 ∧
        vm' = { vm with regions := vm.regions.setSlot slot { r with
          addrHigh := addr
          hostBase := (heap.realloc r.hostBase (addr - r.addrLow).toNat rc added).2 } }) := by
  simp only [callBrk, bind_eq_ok, deref_eq_ok] at h
  obtain ⟨slot, hslot, r, hr, h⟩ := h
  refine ⟨slot, r, hslot, hr, ?_⟩
  split at h
  next hquery =>
    cases h
    refine Or.inl ⟨rfl, rfl, fun hsets => ?_⟩
    have habove := hsets.above
    rcases hquery with rfl | hle
    · bv_omega
    · bv_omega
  next hgrow =>
    obtain ⟨eligible, heligible, h⟩ := bind_eq_ok.mp h
    cases eligible with
    | false =>
      cases h
      refine Or.inl ⟨rfl, rfl, fun hsets => ?_⟩
      cases heligible.symm.trans hsets.eligible
    | true =>
      have habove : r.addrHigh < addr := by
        rw [not_or] at hgrow
        bv_omega
      refine Or.inr ⟨⟨hslot, hr, habove, heligible⟩, ?_⟩
      split at h
      next hfalse => cases hfalse
      next =>
        split at h
        next =>
          cases h
          exact ⟨rfl, rfl⟩
        next =>
          cases h
          exact ⟨rfl, rfl⟩

/-- The region whose end is moved is a registered one. -/
theorem SetsBreak.registered {addr : Word} {slot : Nat} {r : PmRegion}
    (h : SetsBreak vm addr slot r) :
    vm.regions.pmrOps[slot]? = some r ∧ ∀ r', (vm.regions.setSlot slot r').pmrOps =
      vm.regions.pmrOps.set slot r' := by
  have hlt : slot < vm.regions.pmrOps.length := by
    obtain ⟨v, hv, -⟩ := isVmaEligible_true h.eligible
    by_contra hnot
    simp only [RegionTable.setSlot, if_neg hnot] at hv
    simp [hnot] at hv
  have hregion := h.region
  rw [RegionTable.slot, elem_eq_ok, List.getElem?_append_left hlt] at hregion
  exact ⟨hregion, fun r' => by simp only [RegionTable.setSlot, if_pos hlt]⟩

end Cases

/-! ## Every call keeps the table in order -/

theorem stackInit_inOrder {heap heap' : HostHeap} {vm vm' : VirtualMemory}
    {rc : Option HostPointer} (horder : RegionsInOrder vm.regions.pmrOps)
    (h : stackInit heap vm rc = .ok (heap', vm')) : RegionsInOrder vm'.regions.pmrOps := by
  simp only [stackInit, bind_eq_ok, pure_eq_ok, Except.ok.injEq, Prod.mk.injEq] at h
  obtain ⟨-, -, regions, hregister, -, -, -, -, -, rfl⟩ := h
  exact horder.register hregister

theorem heapInit_inOrder {vm vm' : VirtualMemory} {progBreak : Word}
    (horder : RegionsInOrder vm.regions.pmrOps) (h : heapInit vm progBreak = .ok vm') :
    RegionsInOrder vm'.regions.pmrOps := by
  simp only [heapInit, bind_eq_ok, pure_eq_ok, Except.ok.injEq] at h
  obtain ⟨regions, hregister, -, -, -, -, rfl⟩ := h
  exact horder.register hregister

/-- The region of the stack. -/
def stackRegion (hostBase : Option HostPointer) : PmRegion :=
  ⟨defaultStackCeiling - BitVec.ofNat 32 defaultStackSize, defaultStackCeiling,
    programRead ||| programWrite, hostBase⟩

/-- The region of a heap that was not extended yet. -/
def heapRegionAt (progBreak : Word) : PmRegion :=
  ⟨progBreak - 1, progBreak, programRead ||| programWrite, none⟩

theorem preallocate_snd (heap : HostHeap) (n : Nat) (rc : Option HostPointer) :
    (heap.preallocatePhysicalMemory n rc).2 = rc := by
  cases rc <;> rfl

/-- `stack_init` puts the stack between the regions below and above it, and leaves its slot. -/
theorem stackInit_ok {heap heap' : HostHeap} {vm vm' : VirtualMemory} {rc : Option HostPointer}
    (horder : RegionsInOrder vm.regions.pmrOps)
    (h : stackInit heap vm rc = .ok (heap', vm')) :
    ∃ p l₁ l₂, rc = some p ∧
      heap' = Function.update heap p (some ⟨defaultStackSize, fun _ => 0⟩) ∧
      vm.regions.pmrOps = l₁ ++ l₂ ∧ vm'.regions.pmrOps = l₁ ++ stackRegion (some p) :: l₂ ∧
      vm'.vmaStack = some l₁.length := by
  have horder' := stackInit_inOrder horder h
  unfold stackInit at h
  simp only [preallocate_snd, bind_eq_ok, pure_eq_ok, Except.ok.injEq, Prod.mk.injEq,
    check_eq_ok] at h
  obtain ⟨-, hrc, regions, hregister, found, hsearch, -, -, rfl, rfl⟩ := h
  obtain ⟨p, rfl⟩ := Option.ne_none_iff_exists'.mp hrc
  obtain ⟨l₁, l₂, hl, rfl, hnonempty, -⟩ := registerPmRegionOperation_ok hregister horder
  have hself := searchPmRegionCallback_of_contains (i := l₁.length) horder' (by simp)
    ⟨BitVec.le_refl _, hnonempty⟩
  obtain rfl := Except.ok.inj (hself.symm.trans hsearch)
  exact ⟨p, l₁, l₂, rfl, rfl, hl, rfl, rfl⟩

/-- `heap_init` puts the heap between the regions below and above it, and leaves its slot. -/
theorem heapInit_split {vm vm' : VirtualMemory} {progBreak : Word}
    (horder : RegionsInOrder vm.regions.pmrOps) (h : heapInit vm progBreak = .ok vm') :
    ∃ l₁ l₂, vm.regions.pmrOps = l₁ ++ l₂ ∧
      vm'.regions.pmrOps =
        l₁ ++ heapRegionAt ((progBreak + 4096 * 16) &&& ~~~4095) :: l₂ ∧
      vm'.vmaHeap = some l₁.length ∧ vm'.vmaStack = vm.vmaStack ∧
      (∀ x ∈ l₁, x.addrHigh ≤ ((progBreak + 4096 * 16) &&& ~~~4095) - 1) ∧
      ∀ x ∈ l₂, (progBreak + 4096 * 16) &&& ~~~4095 ≤ x.addrLow := by
  have horder' := heapInit_inOrder horder h
  unfold heapInit at h
  simp only [bind_eq_ok, pure_eq_ok, Except.ok.injEq, check_eq_ok] at h
  generalize (progBreak + 4096 * 16) &&& ~~~4095 = b at h ⊢
  obtain ⟨regions, hregister, found, hsearch, -, -, rfl⟩ := h
  obtain ⟨l₁, l₂, hl, rfl, hnonempty, hbelow, habove⟩ :=
    registerPmRegionOperation_ok hregister horder
  have hself := searchPmRegionCallback_of_contains (i := l₁.length) horder' (by simp)
    ⟨BitVec.le_refl _, hnonempty⟩
  obtain rfl := Except.ok.inj (hself.symm.trans hsearch)
  exact ⟨l₁, l₂, hl, rfl, rfl, rfl, hbelow, habove⟩

/-- `heap_init` leaves the slot of the heap region, which has no buffer yet. -/
theorem heapInit_ok {vm vm' : VirtualMemory} {progBreak : Word}
    (horder : RegionsInOrder vm.regions.pmrOps) (h : heapInit vm progBreak = .ok vm') :
    ∃ slot r, vm'.vmaHeap = some slot ∧ vm'.regions.pmrOps[slot]? = some r ∧
      r.addrLow = ((progBreak + 4096 * 16) &&& ~~~4095) - 1 ∧
      r.addrHigh = (progBreak + 4096 * 16) &&& ~~~4095 ∧ r.hostBase = none := by
  obtain ⟨l₁, l₂, -, htable, hslot, -⟩ := heapInit_split horder h
  refine ⟨l₁.length, heapRegionAt ((progBreak + 4096 * 16) &&& ~~~4095), hslot, ?_, rfl, rfl, rfl⟩
  rw [htable, List.getElem?_append_right (Nat.le_refl _), Nat.sub_self]
  rfl

theorem mmapSetup_inOrder {heap heap' : HostHeap} {vm vm' : VirtualMemory}
    {addrLow len flags : Word} {hostBase rc : Option HostPointer}
    (horder : RegionsInOrder vm.regions.pmrOps)
    (h : mmapSetup heap vm addrLow len flags hostBase rc = .ok (heap', vm')) :
    RegionsInOrder vm'.regions.pmrOps := by
  obtain ⟨base, hregister, -⟩ := mmapSetup_ok h
  exact horder.register hregister

theorem doMmap_inOrder {heap heap' : HostHeap} {vm vm' : VirtualMemory}
    {proposalAddr len prot flags rv : Word} {rc : Option HostPointer}
    (horder : RegionsInOrder vm.regions.pmrOps)
    (h : doMmap heap vm proposalAddr len prot flags rc = .ok (rv, heap', vm')) :
    RegionsInOrder vm'.regions.pmrOps := by
  rcases doMmap_cases h with ⟨-, rfl⟩ | ⟨-, -, hsetup⟩
  · exact horder
  · exact mmapSetup_inOrder horder hsetup

theorem doMunmap_inOrder {heap heap' : HostHeap} {vm vm' : VirtualMemory} {addr len rv : Word}
    (horder : RegionsInOrder vm.regions.pmrOps)
    (h : doMunmap heap vm addr len = .ok (rv, heap', vm')) :
    RegionsInOrder vm'.regions.pmrOps := by
  rcases doMunmap_cases h with ⟨-, rfl, -⟩ | ⟨slot, pmr, -, -, -, hregions, -⟩
  · exact horder
  · rw [hregions]
    exact horder.sublist (List.eraseIdx_sublist _ _)

/-- The end of the heap moves up where no other region starts. -/
theorem SetsBreak.inOrder {vm : VirtualMemory} {addr : Word} {slot : Nat} {r : PmRegion}
    (h : SetsBreak vm addr slot r) (horder : RegionsInOrder vm.regions.pmrOps)
    (hostBase : Option HostPointer) :
    RegionsInOrder (vm.regions.pmrOps.set slot { r with addrHigh := addr, hostBase }) := by
  obtain ⟨hr, hset⟩ := h.registered
  obtain ⟨hslot, -⟩ := List.getElem?_eq_some_iff.mp hr
  obtain ⟨w, hw, hclear⟩ := isVmaEligible_true h.eligible
  rw [hset] at hw hclear
  rw [List.getElem?_set_self hslot, Option.some.injEq] at hw
  subst hw
  have habove := h.above
  refine horder.extend hr rfl (by bv_omega) ?_
  intro j x hj hne
  exact hclear j x (by rw [List.getElem?_set_ne (Ne.symm hne)]; exact hj) hne

theorem callBrk_inOrder {heap heap' : HostHeap} {vm vm' : VirtualMemory} {addr rv : Word}
    {rc : Option HostPointer} {added : Nat → Byte} (horder : RegionsInOrder vm.regions.pmrOps)
    (h : callBrk heap vm addr rc added = .ok (rv, heap', vm')) :
    RegionsInOrder vm'.regions.pmrOps := by
  obtain ⟨slot, r, -, -, ⟨-, rfl, -⟩ | ⟨hsets, -, rfl⟩⟩ := callBrk_cases h
  · exact horder
  · simp only [hsets.registered.2]
    exact hsets.inOrder horder _

theorem MemoryCall.run_inOrder {call : MemoryCall} {s s' : HostHeap × VirtualMemory}
    (horder : RegionsInOrder s.2.regions.pmrOps) (h : call.run s.1 s.2 = .ok s') :
    RegionsInOrder s'.2.regions.pmrOps := by
  cases call with
  | registerPmRegion pmr =>
    simp only [MemoryCall.run, bind_eq_ok, pure_eq_ok, Except.ok.injEq] at h
    obtain ⟨regions, hregister, rfl⟩ := h
    exact horder.register hregister
  | stackInit rc => exact stackInit_inOrder horder h
  | heapInit progBreak =>
    simp only [MemoryCall.run, bind_eq_ok, pure_eq_ok, Except.ok.injEq] at h
    obtain ⟨vm', hinit, rfl⟩ := h
    exact heapInit_inOrder horder hinit
  | mmapSetup addrLow len flags hostBase rc => exact mmapSetup_inOrder horder h
  | mmap proposalAddr len prot flags rc =>
    simp only [MemoryCall.run, bind_eq_ok, pure_eq_ok, Except.ok.injEq] at h
    obtain ⟨⟨rv, heap', vm'⟩, hmmap, rfl⟩ := h
    exact doMmap_inOrder horder hmmap
  | munmap addr len =>
    simp only [MemoryCall.run, bind_eq_ok, pure_eq_ok, Except.ok.injEq] at h
    obtain ⟨⟨rv, heap', vm'⟩, hmunmap, rfl⟩ := h
    exact doMunmap_inOrder horder hmunmap
  | unregisterPmRegion slot =>
    simp only [MemoryCall.run, bind_eq_ok, pure_eq_ok, Except.ok.injEq] at h
    obtain ⟨regions, hunregister, rfl⟩ := h
    exact horder.unregister hunregister
  | brk addr rc added =>
    simp only [MemoryCall.run, bind_eq_ok, pure_eq_ok, Except.ok.injEq] at h
    obtain ⟨⟨rv, heap', vm'⟩, hbrk, rfl⟩ := h
    exact callBrk_inOrder horder hbrk
  | reclaim =>
    simp only [MemoryCall.run, pure_eq_ok, Except.ok.injEq] at h
    subst h
    exact regionsInOrder_nil

/-- No region of the table is empty, each starts above the one before, and no two
share an address. -/
def RegionTable.SortedDisjoint (t : RegionTable) : Prop :=
  (∀ r ∈ t.pmrOps, r.addrLow < r.addrHigh) ∧
  (t.pmrOps.Pairwise fun a b => a.addrLow < b.addrLow) ∧
  t.pmrOps.Pairwise fun a b => ∀ address, ¬ (a.Contains address ∧ b.Contains address)

theorem RegionsInOrder.sortedDisjoint {t : RegionTable} (h : RegionsInOrder t.pmrOps) :
    t.SortedDisjoint := by
  refine ⟨h.nonempty, ?_, ?_⟩
  · refine h.below.imp_of_mem fun {a b} ha _ hab => ?_
    have := h.nonempty a ha
    bv_omega
  · refine h.below.imp fun {a b} hab address hboth => ?_
    obtain ⟨⟨-, ha⟩, hb, -⟩ := hboth
    bv_omega

theorem regionsInOrder_of_reachable {s : HostHeap × VirtualMemory}
    (h : memoryRuns.Reachable s) : RegionsInOrder s.2.regions.pmrOps := by
  refine h.invariant (P := fun s => RegionsInOrder s.2.regions.pmrOps) ?_ ?_
  · intro s hs
    rw [hs]
    exact regionsInOrder_nil
  · intro s call s' horder hstep
    exact MemoryCall.run_inOrder horder hstep

/-- In every state that calls on the memory reach by returning, the region table
is sorted, and its regions are non-empty and disjoint. -/
theorem regionTable_sortedDisjoint {s : HostHeap × VirtualMemory} (h : memoryRuns.Reachable s) :
    s.2.regions.SortedDisjoint :=
  (regionsInOrder_of_reachable h).sortedDisjoint

/-- A heap, a moved program break, and a page mapped below. -/
theorem regionTable_sortedDisjoint_heap :
    ∃ s, memoryRuns.Reachable s ∧
      s.2.regions.pmrOps.map (fun r => (r.addrLow, r.addrHigh)) =
        [(0x1000, 0x2000), (0x1ffff, 0x30000)] ∧
      s.2.regions.SortedDisjoint := by
  have hrun : (do
      let s ← MemoryCall.run (fun _ => none) .empty (.heapInit 0x10000)
      let s ← MemoryCall.run s.1 s.2 (.brk 0x30000 (some 0) fun _ => 0)
      let s ← MemoryCall.run s.1 s.2 (.mmapSetup 0x1000 0x1000 7 none (some 1))
      return s.2.regions.pmrOps.map fun r : PmRegion => (r.addrLow, r.addrHigh)) =
        .ok [(0x1000, 0x2000), (0x1ffff, 0x30000)] := by
    decide +kernel
  simp only [bind_eq_ok, pure_eq_ok, Except.ok.injEq] at hrun
  obtain ⟨s₁, h₁, s₂, h₂, s₃, h₃, hregions⟩ := hrun
  have hinit : memoryRuns.Reachable (fun _ => none, .empty) := .init rfl
  have hreach : memoryRuns.Reachable s₃ := ((hinit.step h₁).step h₂).step h₃
  exact ⟨s₃, hreach, hregions, regionTable_sortedDisjoint hreach⟩

end Hyrule
