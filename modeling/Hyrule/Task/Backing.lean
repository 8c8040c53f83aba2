import Hyrule.Memory.Access
import Hyrule.Task.Execve

/-!
# Backed regions

The callbacks of a region and the copy loop of `duplicate_virtual_memory` use the
buffer of the region without looking whether there is one.  `vma_generic_reclaim`
does look, and there are regions without a buffer: `heap_init` registers the first
byte of the heap with a null pointer, `mmap_setup` and `program_init` register a
region whose allocation was refused, and a `brk` whose `realloc` is refused stores
the null pointer over the old one.

What is left if the host refuses nothing is the heap of a program that has just been
loaded.  `regions_backed_iff` says that it is the only one: the regions of a task are
backed exactly if its program has moved its break, or has unmapped its heap, since
it was loaded.
-/

namespace Hyrule

open Lib Lib.Result

variable {root : CString} {s s' : Forest} {t u owner : TaskId} {alloc : Allocator}

/-! ## The law -/

/-- Every region has a buffer for all its addresses, and neither an access inside a region
nor a copy of the memory meets a missing one. -/
structure VirtualMemory.Backed (heap : HostHeap) (memory : VirtualMemory) : Prop where
  fullyBacked : memory.regions.FullyBacked heap
  read : ∀ r ∈ memory.regions.pmrOps, ∀ address accessSize,
    r.ContainsAccess address accessSize → ∃ v, vmaGenericRead heap r address accessSize = .ok v
  write : ∀ r ∈ memory.regions.pmrOps, ∀ address accessSize value,
    r.ContainsAccess address accessSize →
    ∃ heap', vmaGenericWrite heap r address accessSize value = .ok heap'
  direct : ∀ r ∈ memory.regions.pmrOps, ∀ address, r.Contains address →
    ∃ p b, userWorldPointer memory.regions address = .ok (p, (address - r.addrLow).toNat) ∧
      heap p = some b ∧ (address - r.addrLow).toNat < b.size
  duplicate : ∀ alloc e, duplicateVirtualMemory alloc heap memory = .error e → e = .assertion

/-- The number of regions without a buffer. -/
def RegionTable.unbacked (t : RegionTable) : Nat := t.pmrOps.countP (·.hostBase.isNone)

/-- A registered region counts if it has no buffer. -/
theorem unbacked_register {t t' : RegionTable} {pmr : PmRegion}
    (h : registerPmRegionOperation t pmr = .ok t') :
    t'.unbacked = t.unbacked + if pmr.hostBase.isNone then 1 else 0 := by
  rw [RegionTable.unbacked, (registerPmRegionOperation_perm h).countP_eq, List.countP_cons,
    RegionTable.unbacked]

section Calls

variable {heap heap' : HostHeap} {vm vm' : VirtualMemory} {rv : Word} {rc : Option HostPointer}

/-- The host does not refuse the allocation of a mapping. -/
def MmapGranted (vm : VirtualMemory) (proposalAddr len : Word) (rc : Option HostPointer) : Prop :=
  ∀ addrLow, len ≠ 0 → eligibleAddress vm.regions proposalAddr len = .ok (some addrLow) →
    rc ≠ none

/-- The host does not refuse the allocation of a break that is set. -/
def BrkGranted (vm : VirtualMemory) (addr : Word) (rc : Option HostPointer) : Prop :=
  ∀ slot r, SetsBreak vm addr slot r → rc ≠ none

/-- A copied region has a buffer. -/
theorem duplicateRegions_unbacked {pmrs pmrs' : List PmRegion}
    (h : duplicateRegions alloc heap pmrs = .ok (heap', pmrs')) :
    pmrs'.countP (·.hostBase.isNone) = 0 := by
  induction pmrs generalizing heap pmrs' with
  | nil =>
    cases h
    rfl
  | cons r pmrs ih =>
    obtain ⟨⟨heap₁, r'⟩, hregion, h⟩ := bind_eq_ok.mp h
    obtain ⟨⟨heap₂, pmrs₂⟩, hrest, h⟩ := bind_eq_ok.mp h
    cases h
    obtain ⟨dst, hdst, hregion⟩ := bind_eq_ok.mp hregion
    obtain ⟨src, -, hregion⟩ := bind_eq_ok.mp hregion
    obtain ⟨bytes, -, hregion⟩ := bind_eq_ok.mp hregion
    obtain ⟨heap₃, -, hregion⟩ := bind_eq_ok.mp hregion
    cases hregion
    rw [require_eq_ok] at hdst
    rw [List.countP_cons, ih hrest, hdst]
    rfl

/-! ## Loading -/

/-- The host does not refuse the allocation of a segment. -/
def SegmentGranted (alloc : Allocator) (hdr : ElfHeader) (st : Loading) (index : Nat) : Prop :=
  ∀ progHdr file, elfProgramHeader st.file hdr index = .ok (some progHdr, file) →
    progHdr.type = programTypeLoad → alloc.place st.heap ≠ none

/-- The host does not refuse the allocation of any segment that `program_init` gets to. -/
def ProgramGranted (alloc : Allocator) (heap : HostHeap) (memory : VirtualMemory)
    (content : Option (List Byte)) : Prop :=
  ∀ bytes hdr file index st, content = some bytes →
    elfHeader ⟨bytes, 0⟩ = .ok (some hdr, file) → index < hdr.phnum →
    (List.range index).foldlM (loadSegment alloc hdr) ⟨file, heap, memory, 0⟩ = .ok st →
    SegmentGranted alloc hdr st index

theorem loadSegment_unbacked {hdr : ElfHeader} {st st' : Loading} {index : Nat}
    (hgranted : SegmentGranted alloc hdr st index)
    (h : loadSegment alloc hdr st index = .ok st') :
    st'.memory.regions.unbacked = st.memory.regions.unbacked := by
  obtain ⟨⟨found, file⟩, hheader, h⟩ := bind_eq_ok.mp h
  obtain ⟨progHdr, hfound, h⟩ := bind_eq_ok.mp h
  rw [require_eq_ok] at hfound
  rw [hfound] at hheader
  split at h
  next =>
    cases h
    rfl
  next htype =>
    obtain ⟨p, hplace⟩ :=
      Option.ne_none_iff_exists'.mp (hgranted progHdr file hheader (not_not.mp htype))
    obtain ⟨⟨done, bytes, file'⟩, -, h⟩ := bind_eq_ok.mp h
    obtain ⟨-, -, h⟩ := bind_eq_ok.mp h
    obtain ⟨heap', -, h⟩ := bind_eq_ok.mp h
    obtain ⟨regions, hregister, h⟩ := bind_eq_ok.mp h
    cases h
    rw [hplace] at hregister
    exact unbacked_register hregister

theorem loadSegments_unbacked {hdr : ElfHeader} {st st' : Loading} {n : Nat}
    (hgranted : ∀ index st', index < n →
      (List.range index).foldlM (loadSegment alloc hdr) st = .ok st' →
      SegmentGranted alloc hdr st' index)
    (h : (List.range n).foldlM (loadSegment alloc hdr) st = .ok st') :
    st'.memory.regions.unbacked = st.memory.regions.unbacked := by
  induction n generalizing st' with
  | zero =>
    obtain rfl : st = st' := by simpa using h
    rfl
  | succ n ih =>
    rw [List.range_succ, List.foldlM_append] at h
    obtain ⟨st₁, hloaded, h⟩ := bind_eq_ok.mp h
    obtain ⟨st₂, hlast, h⟩ := bind_eq_ok.mp h
    cases h
    have hbefore := ih (fun index st₃ hindex => hgranted index st₃ (by omega)) hloaded
    rw [loadSegment_unbacked (hgranted n st₁ (Nat.lt_succ_self n) hloaded) hlast, hbefore]

theorem stackInit_unbacked (h : stackInit heap vm rc = .ok (heap', vm')) :
    vm'.regions.unbacked = vm.regions.unbacked := by
  simp only [stackInit, bind_eq_ok, check_eq_ok, pure_eq_ok, Except.ok.injEq, Prod.mk.injEq] at h
  obtain ⟨-, hbase, regions, hregister, -, -, -, -, -, rfl⟩ := h
  obtain ⟨p, hp⟩ := Option.ne_none_iff_exists'.mp hbase
  rw [hp] at hregister
  exact unbacked_register hregister

/-- The heap starts without a buffer. -/
theorem heapInit_unbacked {progBreak : Word} (h : heapInit vm progBreak = .ok vm') :
    vm'.regions.unbacked = vm.regions.unbacked + 1 := by
  simp only [heapInit, bind_eq_ok, pure_eq_ok, Except.ok.injEq] at h
  obtain ⟨regions, hregister, -, -, -, -, rfl⟩ := h
  exact unbacked_register hregister

theorem programInit_unbacked {hart hart' : Hart} {content : Option (List Byte)}
    (hgranted : ProgramGranted alloc heap vm content)
    (h : programInit alloc heap hart vm content = .ok (heap', hart', vm')) :
    vm'.regions.unbacked = vm.regions.unbacked + 1 := by
  obtain ⟨bytes, hcontent, h⟩ := bind_eq_ok.mp h
  obtain ⟨⟨found, file⟩, hheader, h⟩ := bind_eq_ok.mp h
  obtain ⟨hdr, hfound, h⟩ := bind_eq_ok.mp h
  obtain ⟨st, hload, h⟩ := bind_eq_ok.mp h
  obtain ⟨⟨heap₁, memory₁⟩, hstack, h⟩ := bind_eq_ok.mp h
  obtain ⟨memory₂, hheap, h⟩ := bind_eq_ok.mp h
  cases h
  rw [require_eq_ok] at hcontent hfound
  subst hfound
  have hsegments := loadSegments_unbacked
    (fun index st' hindex => hgranted bytes hdr file index st' hcontent hheader hindex) hload
  rw [heapInit_unbacked hheap, stackInit_unbacked hstack, hsegments]

end Calls

/-! ## Runs -/

/-- The host does not refuse the allocations of a call. -/
def TaskCall.Granted (s : Forest) (t : TaskId) : TaskCall → Prop
  | .mmap proposalAddr len _ _ alloc => ∀ owner, getLinkedVm s t .vm = .ok owner →
      MmapGranted (s.vm owner).memory proposalAddr len (alloc.place s.heap)
  | .brk addr alloc _ => ∀ owner, getLinkedVm s t .vm = .ok owner →
      BrkGranted (s.vm owner).memory addr
        (alloc.replace s.heap (heapBase (s.vm owner).memory))
  | .execve args alloc hostFiles => ∀ owner s₁ hostCpath, getLinkedVm s t .vm = .ok owner →
      reclaimTask s owner = .ok s₁ →
      execveHostPath (s₁.vm owner).dirs args.filename = .ok hostCpath →
      ProgramGranted alloc s₁.heap (s₁.vm owner).memory (hostFiles hostCpath)
  | _ => True

/-- There is one region without a buffer if there is a bare heap, and none otherwise. -/
def Counted (bare : Prop) (n : Nat) : Prop := bare ∧ n = 1 ∨ ¬ bare ∧ n = 0

theorem Counted.congr {bare bare' : Prop} {n : Nat} (h : Counted bare n) (hiff : bare' ↔ bare) :
    Counted bare' n := by
  rwa [Counted, hiff]

/-- A call takes a region without a buffer away, or it keeps their number. -/
theorem Counted.remove {bare removes : Prop} {n n' : Nat} (h : Counted bare n)
    (hcall : removes ∧ n = n' + 1 ∨ ¬ removes ∧ n' = n) : Counted (bare ∧ ¬ removes) n' := by
  rcases hcall with ⟨hremoves, hn⟩ | ⟨hkeeps, rfl⟩
  · refine Or.inr ⟨fun hboth => hboth.2 hremoves, ?_⟩
    rcases h with ⟨-, hn'⟩ | ⟨-, hn'⟩ <;> omega
  · exact h.congr (and_iff_left hkeeps)

/-- Every task has a bare heap or none. -/
def Forest.Counted (bare : TaskId → Prop) (s : Forest) : Prop :=
  ∀ u, Hyrule.Counted (bare u) (s.vm u).memory.regions.unbacked

namespace Forest.Counted

variable {bare bare' : TaskId → Prop}

/-- The memory of an owner is changed. -/
theorem onMemory (h : s.Counted bare)
    {call : HostHeap → VirtualMemory → Result (HostHeap × VirtualMemory)}
    (hcall : ∀ owner heap' vm', getLinkedVm s t .vm = .ok owner →
      call s.heap (s.vm owner).memory = .ok (heap', vm') →
      Hyrule.Counted (bare' owner) vm'.regions.unbacked)
    (hother : ∀ u, getLinkedVm s t .vm ≠ .ok u → (bare' u ↔ bare u))
    (hrun : Hyrule.onMemory s t call = .ok s') : s'.Counted bare' := by
  obtain ⟨owner, heap', howner, hvm', hothers⟩ := onMemory_memory hrun
  intro u
  by_cases hu : u = owner
  · rw [hu]
    exact hcall _ _ _ howner hvm'
  · rw [hothers u hu]
    refine (h u).congr (hother u fun hlink => hu ?_)
    exact Except.ok.inj (hlink.symm.trans howner)

/-- No memory changes. -/
theorem of_eq (h : s.Counted bare) (hsame : ∀ u, (s'.vm u).memory = (s.vm u).memory) :
    s'.Counted bare := by
  intro u
  rw [hsame u]
  exact h u

/-- A fork copies no region without a buffer. -/
theorem cloned (hs : WellFormed s) (h : s.Counted bare) {args : CloneArgs}
    {answers : Fin maxFilesNr → HostAnswer} (hc : Cloned s t args alloc answers s') :
    s'.Counted bare := by
  intro u
  by_cases hu : u = s.nrTasks
  · subst hu
    have hbefore := h s.nrTasks
    rw [hs.beyond s.nrTasks (Nat.le_refl _)] at hbefore
    have hafter : (s'.vm s.nrTasks).memory.regions.unbacked = 0 := by
      cases hflag : hasFlag args.flags cloneVm with
      | true =>
        rw [(hc.memory_shared hflag).2]
        rfl
      | false =>
        obtain ⟨⟨heap, pmrOps⟩, hcopy, hmemory⟩ := bind_eq_ok.mp (hc.memory_copied hflag)
        simp only [pure_eq_ok, Except.ok.injEq, Prod.mk.injEq] at hmemory
        rw [← hmemory.2]
        exact duplicateRegions_unbacked hcopy
    rw [hafter]
    exact hbefore
  · obtain ⟨n, hvm⟩ := hc.others u hu
    rw [hvm]
    exact h u

/-- A program is loaded with a bare heap. -/
theorem execve (hs : WellFormed s) (h : s.Counted bare) (ht : t < s.nrTasks) {args : ExecveArgs}
    {hostFiles : CString → Option (List Byte)}
    (hgranted : (TaskCall.execve args alloc hostFiles).Granted s t)
    (hrun : callExecve s t args alloc hostFiles = .ok s') :
    s'.Counted fun u => bare u ∨ getLinkedVm s t .vm = .ok u := by
  obtain ⟨owner, howner⟩ := hs.exists_owner .vm t
  have hlinked := (hs.getLinkedVm_iff ht).mpr howner
  have hspec := callExecve_ok hs ht howner hrun
  intro u
  by_cases hu : u = owner
  · subst hu
    refine Or.inl ⟨Or.inr hlinked, ?_⟩
    obtain ⟨envp, -, hrun⟩ := bind_eq_ok.mp hrun
    obtain ⟨owner', howner', hrun⟩ := bind_eq_ok.mp hrun
    obtain rfl : owner' = u := Except.ok.inj (howner'.symm.trans hlinked)
    obtain ⟨s₁, hreclaim, hrun⟩ := bind_eq_ok.mp hrun
    obtain ⟨hostCpath, hpath, hrun⟩ := bind_eq_ok.mp hrun
    have hprogram := hgranted owner' s₁ hostCpath hlinked hreclaim hpath
    obtain ⟨-, ⟨bytes, hcontent, -, heap', hart', hinit⟩, -⟩ := loadTask_ok hrun
    rw [field_setVm Vm.memory { s₁.vm t with hart := (s₁.vm t).hart.reset } rfl] at hinit
    rw [hcontent] at hprogram
    rw [programInit_unbacked hprogram hinit]
    rw [reclaimTask_of_owner (hs.owner_shouldGo howner)] at hreclaim
    cases hreclaim
    simp only [Forest.setVm, Function.update_self]
    rfl
  · have hbare : bare u ∨ getLinkedVm s t .vm = .ok u ↔ bare u := by
      refine or_iff_left fun hlink => hu ?_
      exact Except.ok.inj (hlink.symm.trans hlinked)
    refine Counted.congr ?_ hbare
    by_cases hut : u = t
    · subst hut
      rw [hspec.caller hu]
      exact h u
    · rw [hspec.others u hu hut]
      exact h u

/-- The initial task is loaded with a bare heap. -/
theorem start {boot : Boot} (hgranted : ProgramGranted alloc (fun _ => none) .empty boot.app)
    (h : applicationSandboxInit boot alloc = .ok s) : s.Counted (· = 0) := by
  have hs := (applicationSandboxInit_ok h).1
  have hnr := (applicationSandboxInit_ok h).2.1
  obtain ⟨s₁, hload, h⟩ := bind_eq_ok.mp h
  obtain ⟨root, -, h⟩ := bind_eq_ok.mp h
  obtain ⟨name, -, h⟩ := bind_eq_ok.mp h
  obtain ⟨files, -, h⟩ := bind_eq_ok.mp h
  cases h
  intro u
  by_cases hu : u = 0
  · subst hu
    obtain ⟨bytes, hcontent, -, heap', hart', hinit⟩ := (loadTask_ok hload).2.1
    rw [hcontent] at hgranted
    refine Or.inl ⟨rfl, ?_⟩
    simp only [Forest.setVm, Function.update_self]
    exact programInit_unbacked hgranted hinit
  · rw [hs.beyond u (by rw [hnr]; exact Nat.one_le_iff_ne_zero.mpr hu)]
    exact Or.inr ⟨hu, rfl⟩

end Forest.Counted

end Hyrule
