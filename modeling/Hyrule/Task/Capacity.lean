import Hyrule.Task.Execve
import Hyrule.Task.Loading

/-!
# The capacity of the region table

The array `pmr_ops` has `MAX_VMA_NR` slots, but a registration checks its number of
regions against `MAX_NR_PM_REGIONS`, which is twice as large.  A table grows when a
program is loaded, by a region for each loadable segment and two more, and when a
region is mapped.  A fork copies a table, and an `execve` starts again from an
empty one.

`regionTable_withinArray` says that a table stays within the array if each program
has few enough segments and each `mmap` finds a free slot.
`exists_table_of_size` says that without the latter it grows to twice the array.
-/

namespace Hyrule

open Lib Lib.Result

variable {root : CString} {s s' : Forest} {t : TaskId} {alloc : Allocator}

/-! ## Loadable segments -/

/-- The program header is one of a segment that is loaded.  One that `lseek` cannot seek
to counts as such. -/
def isLoadable (content : List Byte) (index : Nat) : Bool :=
  let hdr := programHeader content
  let offset := hdr.phoff + BitVec.ofNat 32 (index * hdr.phentsize)
  offset.toInt < 0 ∨
    (ElfProgramHeader.ofBytes ((content.drop offset.toInt.toNat).take elfProgramHeaderSize)).type =
      programTypeLoad

/-- The number of segments that are loaded. -/
def loadableSegments (content : List Byte) : Nat :=
  (List.range (programHeader content).phnum).countP (isLoadable content)

/-- The regions of a program fit into the array, with the stack and the heap. -/
def ProgramFits (content : List Byte) : Prop := loadableSegments content + 2 ≤ maxVmaNr

/-- A header that is read as one of a segment is one. -/
theorem isLoadable_of_headerRead {content : List Byte} {file : HostFile} {index : Nat}
    (hfile : file.content = content)
    (htype : (headerRead (programHeader content) file index).type = programTypeLoad) :
    isLoadable content index = true := by
  unfold isLoadable
  simp only [decide_eq_true_eq]
  by_cases hneg : ((programHeader content).phoff +
      BitVec.ofNat 32 (index * (programHeader content).phentsize)).toInt < 0
  · exact Or.inl hneg
  · right
    rw [headerRead, HostFile.content_toHeader, hfile, HostFile.toHeader, HostFile.seek,
      if_pos (Int.not_lt.mp hneg)] at htype
    exact htype

theorem length_loadedHeaders_le {content : List Byte} {indices : List Nat} :
    ∀ {file : HostFile}, file.content = content →
      (loadedHeaders (programHeader content) file indices).length ≤
        indices.countP (isLoadable content) := by
  induction indices with
  | nil =>
    intro file _
    exact Nat.le_refl 0
  | cons index indices ih =>
    intro file hfile
    rw [loadedHeaders, List.countP_cons]
    split
    next =>
      have hrest := @ih (file.behindHeader (programHeader content) index) (by simpa)
      omega
    next htype =>
      rw [isLoadable_of_headerRead hfile (not_not.mp htype), if_pos rfl, List.length_cons]
      exact Nat.succ_le_succ (ih (by simpa))

theorem registerPmRegionOperation_length {t t' : RegionTable} {pmr : PmRegion}
    (h : registerPmRegionOperation t pmr = .ok t') : t'.nrPmrOps = t.nrPmrOps + 1 :=
  (registerPmRegionOperation_perm h).length_eq

/-- A program that fits is loaded into a table that stays within the array. -/
theorem programInit_nrPmrOps {heap heap' : HostHeap} {hart hart' : Hart} {stale : List PmRegion}
    {vmaHeap vmaStack : Option Nat} {memory' : VirtualMemory} {content : List Byte}
    (hfits : ProgramFits content)
    (h : programInit alloc heap hart ⟨⟨[], stale⟩, vmaHeap, vmaStack⟩ (some content) =
      .ok (heap', hart', memory')) : memory'.regions.nrPmrOps ≤ maxVmaNr := by
  have hlength := (programInit_regions h).2.length_eq
  have hheaders : (programHeaders content).length ≤ loadableSegments content :=
    length_loadedHeaders_le rfl
  unfold ProgramFits at hfits
  simp only [programRegions, List.length_map, List.length_cons] at hlength
  rw [RegionTable.nrPmrOps, hlength]
  omega

theorem VirtualMemory.LoadedFrom.nrPmrOps_le {memory : VirtualMemory} {content : List Byte}
    (h : memory.LoadedFrom content) (hfits : ProgramFits content) :
    memory.regions.nrPmrOps ≤ maxVmaNr := by
  obtain ⟨alloc, heap, hart, stale, heap', hart', hprogram⟩ := h
  exact programInit_nrPmrOps hfits hprogram

/-! ## Runs -/

/-- Every table stays within the array. -/
def WithinArray (s : Forest) : Prop := ∀ t, (s.vm t).memory.regions.nrPmrOps ≤ maxVmaNr

/-- A program that is executed fits, and a region that is mapped finds a free slot. -/
def FitsArray (s : Forest) : TaskId × TaskCall → Prop
  | (t, .execve args _ hostFiles) =>
      ∀ content, s.Loads t args.filename hostFiles content → ProgramFits content
  | (t, .mmap proposalAddr len _ _ _) => ∀ owner a, getLinkedVm s t .vm = .ok owner → len ≠ 0 →
      eligibleAddress (s.vm owner).memory.regions proposalAddr len = .ok (some a) →
      (s.vm owner).memory.regions.nrPmrOps < maxVmaNr
  | _ => True

/-- The runs whose programs fit and whose mapped regions find a slot. -/
def fittingRuns (root : CString) : System Forest (TaskId × TaskCall) where
  init s := ∃ boot alloc, boot.root = some root ∧
    (∀ content, boot.app = some content → ProgramFits content) ∧
    applicationSandboxInit boot alloc = .ok s
  step := ((forestRuns root).restrict FitsArray).step

theorem applicationSandboxInit_withinArray {boot : Boot}
    (hfits : ∀ content, boot.app = some content → ProgramFits content)
    (h : applicationSandboxInit boot alloc = .ok s) : WithinArray s := by
  have hs := (applicationSandboxInit_ok h).1
  have hnr := (applicationSandboxInit_ok h).2.1
  obtain ⟨s₁, hload, h⟩ := bind_eq_ok.mp h
  obtain ⟨root, -, h⟩ := bind_eq_ok.mp h
  obtain ⟨name, -, h⟩ := bind_eq_ok.mp h
  obtain ⟨files, -, h⟩ := bind_eq_ok.mp h
  cases h
  intro t
  by_cases heq : t = 0
  · obtain ⟨content, hcontent, -, heap', hart', hprogram⟩ := (loadTask_ok hload).2.1
    subst heq
    simp only [Forest.setVm, Function.update_self]
    exact programInit_nrPmrOps (hfits content hcontent) hprogram
  · rw [hs.beyond t (by rw [hnr]; exact Nat.one_le_iff_ne_zero.mpr heq)]
    exact Nat.zero_le _

theorem WithinArray.execve (hs : WellFormed s) (h : WithinArray s) (ht : t < s.nrTasks)
    {args : ExecveArgs} {hostFiles : CString → Option (List Byte)}
    (hfits : ∀ content, s.Loads t args.filename hostFiles content → ProgramFits content)
    (hexec : callExecve s t args alloc hostFiles = .ok s') : WithinArray s' := by
  obtain ⟨owner, howner⟩ := hs.exists_owner .vm t
  have hspec := callExecve_ok hs ht howner hexec
  intro u
  by_cases hu : u = owner
  · subst hu
    obtain ⟨content, hloads, -, hloaded⟩ := hspec.starts
    exact hloaded.nrPmrOps_le (hfits content hloads)
  · by_cases hut : u = t
    · subst hut
      rw [hspec.caller hu]
      exact h u
    · rw [hspec.others u hu hut]
      exact h u

theorem WithinArray.onMemory (h : WithinArray s)
    {call : HostHeap → VirtualMemory → Result (HostHeap × VirtualMemory)}
    (hcall : ∀ owner heap' vm', getLinkedVm s t .vm = .ok owner →
      call s.heap (s.vm owner).memory = .ok (heap', vm') → vm'.regions.nrPmrOps ≤ maxVmaNr)
    (hrun : onMemory s t call = .ok s') : WithinArray s' := by
  obtain ⟨owner, heap', howner, hvm', hothers⟩ := onMemory_memory hrun
  intro u
  by_cases hu : u = owner
  · rw [hu]
    exact hcall _ _ _ howner hvm'
  · rw [hothers u hu]
    exact h u

/-- No memory changes. -/
theorem WithinArray.of_eq (h : WithinArray s)
    (hsame : ∀ u, (s'.vm u).memory = (s.vm u).memory) : WithinArray s' :=
  fun u => by rw [hsame u]; exact h u

/-- A fork copies the table of the caller. -/
theorem WithinArray.cloned {args : CloneArgs} {answers : Fin maxFilesNr → HostAnswer}
    (h : WithinArray s) (hc : Cloned s t args alloc answers s') : WithinArray s' := by
  intro u
  by_cases hu : u = s.nrTasks
  · subst hu
    cases hflag : hasFlag args.flags cloneVm with
    | true =>
      rw [(hc.memory_shared hflag).2]
      exact Nat.zero_le _
    | false =>
      obtain ⟨⟨heap, pmrOps⟩, hcopy, hmemory⟩ := bind_eq_ok.mp (hc.memory_copied hflag)
      simp only [pure_eq_ok, Except.ok.injEq, Prod.mk.injEq] at hmemory
      rw [← hmemory.2]
      have hlength := congrArg List.length (duplicateRegions_bounds hcopy)
      rw [List.length_map, List.length_map] at hlength
      exact Nat.le_trans (Nat.le_of_eq hlength) (h t)
  · obtain ⟨n, hvm⟩ := hc.others u hu
    rw [hvm]
    exact h u

theorem WithinArray.run (hs : WellFormed s) (h : WithinArray s) (ht : t < s.nrTasks)
    {call : TaskCall} (hfits : FitsArray s (t, call)) (hrun : call.run s t = .ok s') :
    WithinArray s' := by
  cases call with
  | clone args alloc answers =>
    obtain ⟨⟨pid, s₁⟩, hclone, hrun⟩ := bind_eq_ok.mp hrun
    cases hrun
    exact h.cloned (cloneTask_ok hclone)
  | execve args alloc hostFiles => exact h.execve hs ht hfits hrun
  | mmap proposalAddr len prot flags alloc =>
    rw [TaskCall.run] at hrun
    refine h.onMemory ?_ hrun
    intro owner heap' vm' howner hcall
    obtain ⟨⟨rv, heap₁, vm₁⟩, hmmap, hcall⟩ := bind_eq_ok.mp hcall
    cases hcall
    rcases doMmap_cases hmmap with ⟨-, hsame⟩ | ⟨hlen, heligible, hsetup⟩
    · rw [hsame]
      exact h owner
    · obtain ⟨base, hregister, -⟩ := mmapSetup_ok hsetup
      have hslot := hfits owner rv howner hlen heligible
      rw [registerPmRegionOperation_length hregister]
      exact hslot
  | munmap addr len =>
    rw [TaskCall.run] at hrun
    refine h.onMemory ?_ hrun
    intro owner heap' vm' howner hcall
    obtain ⟨⟨rv, heap₁, vm₁⟩, hmunmap, hcall⟩ := bind_eq_ok.mp hcall
    cases hcall
    rcases doMunmap_cases hmunmap with ⟨-, hsame, -⟩ | ⟨slot, pmr, -, -, -, hregions, -⟩
    · rw [hsame]
      exact h owner
    · rw [RegionTable.nrPmrOps, hregions]
      exact Nat.le_trans (List.length_eraseIdx_le _ _) (h owner)
  | brk addr alloc added =>
    rw [TaskCall.run] at hrun
    refine h.onMemory ?_ hrun
    intro owner heap' vm' howner hcall
    obtain ⟨⟨rv, heap₁, vm₁⟩, hbrk, hcall⟩ := bind_eq_ok.mp hcall
    cases hcall
    obtain ⟨slot, r, -, -, ⟨-, hsame, -⟩ | ⟨hsets, -, hmoved⟩⟩ := callBrk_cases hbrk
    · rw [hsame]
      exact h owner
    · rw [hmoved, RegionTable.nrPmrOps, hsets.registered.2, List.length_set]
      exact h owner
  | store address bytes => exact h.of_eq (TaskCall.run_memory hrun trivial)
  | chdir path => exact h.of_eq (TaskCall.run_memory hrun trivial)
  | file call => exact h.of_eq (TaskCall.run_memory hrun trivial)
  | instructions registers pc => exact h.of_eq (TaskCall.run_memory hrun trivial)

/-- In every run whose programs fit and whose mapped regions find a slot, no table grows
beyond the array. -/
theorem regionTable_withinArray (h : (fittingRuns root).Reachable s) : WithinArray s := by
  suffices hinv : WellFormed s ∧ WithinArray s from hinv.2
  refine h.invariant (P := fun s => WellFormed s ∧ WithinArray s) ?_ ?_
  · rintro s ⟨boot, alloc, -, hfits, hboot⟩
    exact ⟨(applicationSandboxInit_ok hboot).1, applicationSandboxInit_withinArray hfits hboot⟩
  · rintro s ⟨t, call⟩ s' ⟨hs, hwithin⟩ ⟨hfits, ht, hrun⟩
    exact ⟨hs.run ht hrun, hwithin.run hs ht hfits hrun⟩

/-- A start-up with a program without segments, and a mapped page. -/
theorem regionTable_withinArray_page :
    ∃ s, (fittingRuns (.ofBuffer [47, 115, 114, 118])).Reachable s ∧
      (s.vm 0).memory.regions.nrPmrOps = 3 ∧ WithinArray s := by
  have hrun : (do
      let s₀ ← applicationSandboxInit (bareBoot (.ofBuffer [47, 115, 114, 118])) (.lowest 8)
      let s ← TaskCall.run s₀ 0 (.mmap 0 0x1000 0 0x23 (.lowest 8))
      return ((s₀.vm 0).memory.regions.nrPmrOps, (s.vm 0).memory.regions.nrPmrOps)) =
        .ok (2, 3) := by
    decide +kernel
  simp only [bind_eq_ok, pure_eq_ok, Except.ok.injEq, Prod.mk.injEq] at hrun
  obtain ⟨s₀, hboot, s, hmmap, hnr₀, hnr⟩ := hrun
  obtain ⟨hs₀, hnrTasks, -, hlinks⟩ := applicationSandboxInit_ok hboot
  have hprogram : ∀ content, (bareBoot (.ofBuffer [47, 115, 114, 118])).app = some content →
      ProgramFits content := by
    intro content hcontent
    obtain rfl := Option.some.inj hcontent
    show loadableSegments (bareElf 0) + 2 ≤ maxVmaNr
    decide
  have hinit : (fittingRuns (.ofBuffer [47, 115, 114, 118])).Reachable s₀ :=
    .init ⟨_, _, rfl, hprogram, hboot⟩
  have ht : 0 < s₀.nrTasks := by rw [hnrTasks]; decide
  have hfits : FitsArray s₀ (0, .mmap 0 0x1000 0 0x23 (.lowest 8)) := by
    intro owner a howner _ _
    have hself := hs₀.getLinkedVm_self .vm ht (by rw [hlinks]; rfl)
    obtain rfl := Except.ok.inj (hself.symm.trans howner)
    rw [hnr₀]
    decide
  have hreach := hinit.step (a := (0, _)) ⟨hfits, ht, hmmap⟩
  exact ⟨s, hreach, hnr, regionTable_withinArray hreach⟩

/-! ## A table that grows beyond the array -/

/-- The hint for the page number `n` above the heap. -/
def pageHint (n : Nat) : Word := BitVec.ofNat 32 (0x10000 + n * 0x1000)

/-- The initial task alone, with a table of a heap, a stack and `n` pages in between. -/
structure MapsPages (s : Forest) (n : Nat) : Prop where
  owns : (s.vm 0).links.clonedVm = false
  nrTasks : s.nrTasks = 1
  inOrder : RegionsInOrder (s.vm 0).memory.regions.pmrOps
  nrPmrOps : (s.vm 0).memory.regions.nrPmrOps = n + 2
  apart : ∀ r ∈ (s.vm 0).memory.regions.pmrOps,
    r.addrHigh.toNat ≤ 0x10000 + n * 0x1000 ∨ 0xdf800000 ≤ r.addrLow.toNat

theorem pageHint_aligned (n : Nat) : pageHint n &&& 4095 = 0 := by
  apply BitVec.eq_of_toNat_eq
  rw [BitVec.toNat_and, pageHint, BitVec.toNat_ofNat]
  show (_ &&& (2 ^ 12 - 1)) = 0
  rw [Nat.and_two_pow_sub_one_eq_mod]
  omega

theorem MapsPages.getLinkedVm_eq {n : Nat} (h : MapsPages s n) : getLinkedVm s 0 .vm = .ok 0 := by
  rw [getLinkedVm, h.nrTasks, linkedVmLoop, Links.shouldGo, h.owns]
  rfl

/-- As long as the check of the registration allows it, one more page is mapped. -/
theorem MapsPages.step {n : Nat} (h : MapsPages s n) (alloc : Allocator) (hn : n < 254) :
    ∃ s', (TaskCall.mmap (pageHint n) 0x1000 0 0x23 alloc).run s 0 = .ok s' ∧
      MapsPages s' (n + 1) := by
  have hhint : (pageHint n).toNat = 0x10000 + n * 0x1000 := by
    rw [pageHint, BitVec.toNat_ofNat]
    omega
  have hend : (pageHint n + 0x1000).toNat = 0x10000 + n * 0x1000 + 0x1000 := by
    rw [BitVec.toNat_add, hhint]
    show (_ + 0x1000) % _ = _
    omega
  have hfree : ∀ r ∈ (s.vm 0).memory.regions.pmrOps,
      r.addrHigh ≤ pageHint n ∨ pageHint n + 0x1000 ≤ r.addrLow := by
    intro r hr
    rcases h.apart r hr with hlow | hhigh
    · exact Or.inl (by rw [BitVec.le_def, hhint]; exact hlow)
    · exact Or.inr (by rw [BitVec.le_def, hend]; omega)
  have hne : pageHint n ≠ 0 := by
    intro heq
    rw [heq] at hhint
    simp at hhint
    omega
  have hroom : (s.vm 0).memory.regions.nrPmrOps < maxNrPmRegions := by
    rw [h.nrPmrOps]
    unfold maxNrPmRegions
    omega
  have hmaps : ∃ heap' vm' base,
      doMmap s.heap (s.vm 0).memory (pageHint n) 0x1000 0 0x23 (alloc.place s.heap) =
        .ok (pageHint n, heap', vm') ∧
      vm'.regions.pmrOps.Perm (⟨pageHint n, pageHint n + 0x1000, mprotOfFlags 0x23, base⟩ ::
        (s.vm 0).memory.regions.pmrOps) :=
    doMmap_returns h.inOrder hne (pageHint_aligned n)
      (by rw [BitVec.lt_def, hend, hhint]; omega) hfree hroom (by decide)
  obtain ⟨heap', vm', base, hmmap, hperm⟩ := hmaps
  refine ⟨_, bind_eq_ok.mpr ⟨0, h.getLinkedVm_eq, bind_eq_ok.mpr ⟨(heap', vm'), ?_, rfl⟩⟩, ?_⟩
  · exact bind_eq_ok.mpr ⟨_, hmmap, rfl⟩
  · refine ⟨?_, h.nrTasks, ?_, ?_, ?_⟩
    all_goals simp only [Forest.setVm, Function.update_self]
    · exact h.owns
    · exact doMmap_inOrder h.inOrder hmmap
    · rw [RegionTable.nrPmrOps, hperm.length_eq, List.length_cons]
      have hnr := h.nrPmrOps
      rw [RegionTable.nrPmrOps] at hnr
      omega
    · intro r hr
      rcases List.mem_cons.mp (hperm.mem_iff.mp hr) with rfl | hr
      · refine Or.inl ?_
        show (pageHint n + 0x1000).toNat ≤ _
        omega
      · rcases h.apart r hr with hlow | hhigh
        · refine Or.inl (Nat.le_trans hlow ?_)
          exact Nat.add_le_add_left (Nat.mul_le_mul_right _ (Nat.le_succ n)) _
        · exact Or.inr hhigh

/-- The table of the initial task grows up to the bound of the registration. -/
theorem exists_table_of_size {n : Nat} (hn : n ≤ 254) :
    ∃ s, (forestRuns (.ofBuffer [47, 115, 114, 118])).Reachable s ∧ MapsPages s n := by
  induction n with
  | zero =>
    have hrun : (do
        let s ← applicationSandboxInit (bareBoot (.ofBuffer [47, 115, 114, 118])) (.lowest 8)
        return (s.vm 0).memory.regions.pmrOps) = .ok [bareHeap, bareStack 0] := by
      decide +kernel
    obtain ⟨s, hboot, htable⟩ := bind_eq_ok.mp hrun
    replace htable : (s.vm 0).memory.regions.pmrOps = [bareHeap, bareStack 0] :=
      Except.ok.inj htable
    obtain ⟨-, hnr, -, hlinks⟩ := applicationSandboxInit_ok hboot
    refine ⟨s, .init ⟨_, _, rfl, hboot⟩, by rw [hlinks], hnr, ?_, ?_, ?_⟩
    · rw [htable]
      exact bare_inOrder 0
    · rw [RegionTable.nrPmrOps, htable]
      rfl
    · rw [htable]
      simp only [List.mem_cons, List.not_mem_nil, or_false, forall_eq_or_imp, forall_eq]
      exact ⟨Or.inl (by decide), Or.inr (by decide)⟩
  | succ n ih =>
    obtain ⟨s, hreach, hs⟩ := ih (by omega)
    obtain ⟨s', hrun, hs'⟩ := hs.step (.lowest 8) (by omega)
    have ht : 0 < s.nrTasks := by rw [hs.nrTasks]; decide
    exact ⟨s', hreach.step (a := (0, _)) ⟨ht, hrun⟩, hs'⟩

/-- After 127 mapped pages the table is larger than the array. -/
theorem regionTable_exceeds_array :
    ∃ s, (forestRuns (.ofBuffer [47, 115, 114, 118])).Reachable s ∧
      (s.vm 0).memory.regions.nrPmrOps = 129 ∧ ¬ WithinArray s := by
  obtain ⟨s, hreach, hs⟩ := exists_table_of_size (by decide : 127 ≤ 254)
  refine ⟨s, hreach, hs.nrPmrOps, fun hwithin => ?_⟩
  have hle := hwithin 0
  rw [hs.nrPmrOps] at hle
  exact absurd hle (by decide)

end Hyrule
