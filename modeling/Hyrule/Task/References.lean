import Mathlib.Algebra.Order.BigOperators.Group.Finset
import Hyrule.Task.Linkage

/-!
# The numbers of references

A task counts the references to it in `ref_count`: one for each child, and one more for
each resource that the child shares with it.  No child ever returns a reference, since
`execve` reclaims the memory of the owner, where `reclaim_virtual_memory` does not reach
`deference_task`.  So in every run the count of a task is the sum over its children
(`refCount_exact`), it never falls, and it is zero exactly while the task has no child.
`ref_count` is an `int32_t`, so this is said of tasks with fewer than `2 ^ 29` children.
-/

namespace Hyrule

open Lib Lib.Result

variable {root : CString} {s s' : Forest} {t u p : TaskId}

/-! ## What a child holds -/

/-- The references to a task that the links of another one stand for. -/
def Links.references (links : Links) (p : TaskId) : Nat :=
  if links.parent = some p then
    1 + links.clonedVm.toNat + links.clonedFs.toNat + links.clonedFiles.toNat
  else 0

/-- The references to a task that all tasks hold. -/
def Forest.references (s : Forest) (p : TaskId) : Nat :=
  ∑ t ∈ Finset.range s.nrTasks, (s.vm t).links.references p

/-- The children of a task. -/
def Forest.children (s : Forest) (p : TaskId) : Finset TaskId :=
  {t ∈ Finset.range s.nrTasks | (s.vm t).links.parent = some p}

/-- Every count is that of the references, as far as it fits. -/
def Forest.Counts (s : Forest) : Prop :=
  ∀ p, (s.vm p).refCount = BitVec.ofNat 32 (s.references p)

theorem Links.references_eq_zero_iff {links : Links} :
    links.references p = 0 ↔ links.parent ≠ some p := by
  unfold Links.references
  split
  next h =>
    constructor
    · intro hzero
      omega
    · intro hne
      exact absurd h hne
  next h => exact ⟨fun _ => h, fun _ => rfl⟩

/-- Nothing refers to a task without children. -/
theorem Forest.references_eq_zero_iff :
    s.references p = 0 ↔ ∀ t, t < s.nrTasks → (s.vm t).links.parent ≠ some p := by
  rw [Forest.references, Finset.sum_eq_zero_iff]
  refine forall_congr' fun t => ?_
  rw [Finset.mem_range, Links.references_eq_zero_iff]

/-- A child holds four references at most. -/
theorem Links.references_le (links : Links) (p : TaskId) :
    links.references p ≤ if links.parent = some p then 4 else 0 := by
  have hvm := links.clonedVm.toNat_le
  have hfs := links.clonedFs.toNat_le
  have hfiles := links.clonedFiles.toNat_le
  unfold Links.references
  split
  next => omega
  next => exact Nat.le_refl 0

theorem Forest.references_le (s : Forest) (p : TaskId) :
    s.references p ≤ 4 * (s.children p).card := by
  calc s.references p
    _ ≤ ∑ t ∈ Finset.range s.nrTasks, if (s.vm t).links.parent = some p then 4 else 0 :=
      Finset.sum_le_sum fun t _ => Links.references_le _ p
    _ = 4 * (s.children p).card := by
      rw [← Finset.sum_filter, Finset.sum_const_nat fun _ _ => rfl, Nat.mul_comm]
      rfl

/-- The count of a task with so many children does not overflow. -/
theorem Forest.Counts.toInt (h : s.Counts) (hfew : (s.children p).card < 2 ^ 29) :
    (s.vm p).refCount.toInt = s.references p := by
  have hle := s.references_le p
  rw [h p, BitVec.toInt_ofNat', Int.bmod_eq_of_le]
  all_goals omega

/-! ## Calls that clone no task -/

theorem reclaimTask_refCount (hshares : (s.vm t).links.clonedVm = false)
    (h : reclaimTask s t = .ok s') : SameField Vm.refCount s s' := by
  rw [reclaimTask_of_owner hshares] at h
  cases h
  exact sameField_setVm _ rfl

/-- What `execve` reclaims is the memory of its owner, so it returns no reference. -/
theorem callExecve_refCount (hs : WellFormed s) (ht : t < s.nrTasks) {args : ExecveArgs}
    {alloc : Allocator} {hostFiles : CString → Option (List Byte)}
    (h : callExecve s t args alloc hostFiles = .ok s') : SameField Vm.refCount s s' := by
  obtain ⟨envp, -, h⟩ := bind_eq_ok.mp h
  obtain ⟨owner, hlink, h⟩ := bind_eq_ok.mp h
  obtain ⟨s₁, hreclaim, h⟩ := bind_eq_ok.mp h
  obtain ⟨hostCpath, -, h⟩ := bind_eq_ok.mp h
  have hshares : (s.vm owner).links.clonedVm = false :=
    hs.owner_shouldGo ((hs.getLinkedVm_iff ht).mp hlink)
  have hreset : SameField Vm.refCount s₁
      (s₁.setVm t { s₁.vm t with hart := (s₁.vm t).hart.reset }) := sameField_setVm s₁.heap rfl
  exact ((reclaimTask_refCount hshares hreclaim).trans hreset).trans
    (loadTask_sameField (fun _ _ _ => rfl) h)

/-- A call that is no clone keeps every count. -/
theorem TaskCall.run_refCount (hs : WellFormed s) (ht : t < s.nrTasks) {call : TaskCall}
    (hclone : ∀ args alloc answers, call ≠ .clone args alloc answers)
    (h : call.run s t = .ok s') (u : TaskId) : (s'.vm u).refCount = (s.vm u).refCount := by
  cases call with
  | clone args alloc answers => exact absurd rfl (hclone args alloc answers)
  | execve args alloc hostFiles => exact (callExecve_refCount hs ht h).same u
  | chdir path =>
    obtain ⟨owner, -, h⟩ := bind_eq_ok.mp h
    obtain ⟨cwd, -, h⟩ := bind_eq_ok.mp h
    cases h
    exact field_setVm Vm.refCount _ (by rfl) u
  | mmap | munmap | brk | store =>
    rw [TaskCall.run] at h
    exact (onMemory_sameField (fun _ _ => rfl) h).same u
  | file c =>
    obtain ⟨dirsOwner, -, h⟩ := bind_eq_ok.mp h
    obtain ⟨owner, -, h⟩ := bind_eq_ok.mp h
    obtain ⟨⟨rv, files⟩, -, h⟩ := bind_eq_ok.mp h
    cases h
    exact field_setVm Vm.refCount _ (by rfl) u
  | instructions registers pc =>
    cases h
    exact field_setVm Vm.refCount _ (by rfl) u

/-! ## Clones -/

section Clone

variable {args : CloneArgs} {alloc : Allocator} {answers : Fin maxFilesNr → HostAnswer}
  {pid flags : Word} {current current' child child' : Vm}

/-- A part of a clone counts a reference if the child shares something. -/
def CountsSharing (current child current' child' : Vm) (shares : Bool) : Prop :=
  current'.refCount = current.refCount + BitVec.ofNat 32 shares.toNat ∧
    child'.refCount = child.refCount

theorem taskVmInit_refCount {heap heap' : HostHeap}
    (h : taskVmInit alloc heap current child flags = .ok (heap', current', child')) :
    CountsSharing current child current' child' (hasFlag flags cloneVm) := by
  unfold taskVmInit at h
  cases hflag : hasFlag flags cloneVm with
  | true =>
    rw [hflag, if_pos rfl] at h
    cases h
    exact ⟨rfl, rfl⟩
  | false =>
    rw [hflag, if_neg (by simp)] at h
    obtain ⟨⟨heap₁, memory⟩, -, h⟩ := bind_eq_ok.mp h
    cases h
    exact ⟨(add_zero _).symm, rfl⟩

theorem taskFsInit_refCount (current child : Vm) (flags : Word) :
    CountsSharing current child (taskFsInit current child flags).1
      (taskFsInit current child flags).2 (hasFlag flags cloneFs) := by
  unfold taskFsInit
  cases hasFlag flags cloneFs with
  | true => exact ⟨rfl, rfl⟩
  | false => exact ⟨(add_zero _).symm, rfl⟩

theorem taskFilesInit_refCount
    (h : taskFilesInit current child flags answers = .ok (current', child')) :
    CountsSharing current child current' child' (hasFlag flags cloneFiles) := by
  unfold taskFilesInit at h
  cases hflag : hasFlag flags cloneFiles with
  | true =>
    rw [hflag, if_pos rfl] at h
    cases h
    exact ⟨rfl, rfl⟩
  | false =>
    rw [hflag, if_neg (by simp)] at h
    obtain ⟨files, -, h⟩ := bind_eq_ok.mp h
    cases h
    exact ⟨(add_zero _).symm, rfl⟩

/-- One reference for the child, and one for each flag.  Nothing refers to the child. -/
theorem cloneTask_refCount (ht : t < s.nrTasks)
    (h : s.cloneTask t args alloc answers = .ok (pid, s')) :
    (s'.vm t).refCount =
        (s.vm t).refCount + BitVec.ofNat 32 ((s'.vm s.nrTasks).links.references t) ∧
      (s'.vm s.nrTasks).refCount = 0 := by
  have hlinks := (cloneTask_ok h).links
  obtain ⟨⟨heap, current₁, child₁⟩, hvm, h⟩ := bind_eq_ok.mp h
  obtain ⟨⟨current₃, child₃⟩, hfiles, h⟩ := bind_eq_ok.mp h
  obtain ⟨child₄, hthreads, h⟩ := bind_eq_ok.mp h
  cases h
  obtain ⟨hart, setChildTid, rfl, -⟩ := taskThreadsInit_ok hthreads
  obtain ⟨hcurrent₁, hchild₁⟩ := taskVmInit_refCount hvm
  obtain ⟨hcurrent₂, hchild₂⟩ := taskFsInit_refCount current₁ child₁ args.flags
  obtain ⟨hcurrent₃, hchild₃⟩ := taskFilesInit_refCount hfiles
  rw [hlinks]
  simp only [Function.update_self, Function.update_of_ne (Nat.ne_of_lt ht)]
  constructor
  · rw [hcurrent₃, hcurrent₂, hcurrent₁]
    simp only [Links.references, if_pos, taskLinkageInit, referenceTask, BitVec.ofNat_add,
      BitVec.add_assoc]
    rfl
  · rw [hchild₃, hchild₂, hchild₁]
    rfl

/-- The counts behind a clone. -/
theorem Forest.Counts.cloned (hs : WellFormed s) (hcounts : s.Counts) (ht : t < s.nrTasks)
    (h : s.cloneTask t args alloc answers = .ok (pid, s')) : s'.Counts := by
  have hc := cloneTask_ok h
  obtain ⟨hparent, hchild⟩ := cloneTask_refCount ht h
  have hold : ∀ p, ∑ u ∈ Finset.range s.nrTasks, (s'.vm u).links.references p =
      s.references p := by
    intro p
    refine Finset.sum_congr rfl fun u hu => ?_
    obtain ⟨refCount, hvm⟩ := hc.others u (Nat.ne_of_lt (Finset.mem_range.mp hu))
    rw [hvm]
  intro p
  rw [Forest.references, hc.nrTasks, Finset.sum_range_succ, hold]
  by_cases hp : p = s.nrTasks
  · -- The child is younger than every task that has a parent.
    subst hp
    have hnone : s.references s.nrTasks = 0 := by
      rw [Forest.references_eq_zero_iff]
      intro u hu hparent
      exact Nat.lt_asymm hu (hs.parent_lt u s.nrTasks hparent)
    have hself : (s'.vm s.nrTasks).links.references s.nrTasks = 0 := by
      rw [Links.references_eq_zero_iff, hc.links]
      intro heq
      exact Nat.ne_of_lt ht (Option.some.inj heq)
    rw [hchild, hnone, hself]
    rfl
  · by_cases hpt : p = t
    · subst hpt
      rw [hparent, hcounts p, BitVec.ofNat_add]
    · have hself : (s'.vm s.nrTasks).links.references p = 0 := by
        rw [Links.references_eq_zero_iff, hc.links]
        intro heq
        exact hpt (Option.some.inj heq).symm
      rw [hc.unrelated p hp hpt, hcounts p, hself, add_zero]

end Clone

/-! ## Runs -/

theorem applicationSandboxInit_counts {boot : Boot} {alloc : Allocator}
    (h : applicationSandboxInit boot alloc = .ok s) : s.Counts := by
  obtain ⟨-, hnr, -, hlinks⟩ := applicationSandboxInit_ok h
  have hcount : ∀ p, (s.vm p).refCount = 0 := by
    obtain ⟨s₁, hload, h⟩ := bind_eq_ok.mp h
    obtain ⟨root, -, h⟩ := bind_eq_ok.mp h
    obtain ⟨name, -, h⟩ := bind_eq_ok.mp h
    obtain ⟨files, -, h⟩ := bind_eq_ok.mp h
    cases h
    intro p
    have hloaded : SameField Vm.refCount _ s₁ := loadTask_sameField (fun _ _ _ => rfl) hload
    exact (field_setVm Vm.refCount _ (by rfl) p).trans (hloaded.same p)
  intro p
  have hzero : s.references p = 0 := by
    rw [Forest.references_eq_zero_iff]
    intro t ht
    rw [hnr, Nat.lt_one_iff] at ht
    rw [ht, hlinks]
    exact (Option.some_ne_none p).symm
  rw [hcount p, hzero]
  rfl

theorem counts_of_reachable (h : (forestRuns root).Reachable s) : s.Counts := by
  suffices hs : WellFormed s ∧ s.Counts from hs.2
  refine h.invariant (P := fun s => WellFormed s ∧ s.Counts) ?_ ?_
  · rintro s ⟨boot, alloc, -, hboot⟩
    exact ⟨(applicationSandboxInit_ok hboot).1, applicationSandboxInit_counts hboot⟩
  · rintro s ⟨t, call⟩ s' ⟨hs, hcounts⟩ ⟨ht, hrun⟩
    refine ⟨hs.run ht hrun, ?_⟩
    by_cases hclone : ∃ args alloc answers, call = .clone args alloc answers
    · obtain ⟨args, alloc, answers, rfl⟩ := hclone
      obtain ⟨⟨pid, s₁⟩, hclone, hrun⟩ := bind_eq_ok.mp hrun
      cases hrun
      exact hcounts.cloned hs ht hclone
    · have hnot : ∀ args alloc answers, call ≠ .clone args alloc answers :=
        fun args alloc answers heq => hclone ⟨args, alloc, answers, heq⟩
      have hk := TaskCall.run_keeps hs ht hnot hrun
      intro p
      rw [TaskCall.run_refCount hs ht hnot hrun, hcounts p, Forest.references, Forest.references,
        hk.nrTasks]
      simp only [hk.links]

end Hyrule
