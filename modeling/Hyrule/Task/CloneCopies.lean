import Hyrule.Task.Linkage

/-!
# What a clone copies

A resource whose flag is not set is copied to the child.  The copy routines read
the fields of the caller itself, while the caller uses those of the owner that
`get_linked_vm` finds.  The two agree for a task that owns the resource.  A task
that shares it has an empty copy, and that is what the child gets.

`cloneTask_copies_iff` is the exact condition, for every clone in every reachable
forest.
-/

namespace Hyrule

open Lib Lib.Result

variable {root : CString} {s s' : Forest} {t : TaskId}
  {args : CloneArgs} {alloc : Allocator} {answers : Fin maxFilesNr → HostAnswer}

/-! ## Copies -/

/-- The child has what the caller uses: a copy of each resource whose flag is not set,
and the same owner for the others. -/
structure CopiesUsed (s : Forest) (t : TaskId) (flags : Word) (s' : Forest) : Prop where
  memory : hasFlag flags cloneVm = false →
    s.usedMemory t = .ok (memoryView s'.heap (s'.vm s.nrTasks).memory)
  dirs : hasFlag flags cloneFs = false → s.usedDirs t = .ok (s'.vm s.nrTasks).dirs
  descriptors : hasFlag flags cloneFiles = false →
    s.usedDescriptors t = .ok (s'.vm s.nrTasks).files.descriptors
  memory_owner : hasFlag flags cloneVm = true →
    ∃ owner, getLinkedVm s' t .vm = .ok owner ∧ getLinkedVm s' s.nrTasks .vm = .ok owner
  dirs_owner : hasFlag flags cloneFs = true →
    ∃ owner, getLinkedVm s' t .fs = .ok owner ∧ getLinkedVm s' s.nrTasks .fs = .ok owner
  files_owner : hasFlag flags cloneFiles = true →
    ∃ owner, getLinkedVm s' t .files = .ok owner ∧ getLinkedVm s' s.nrTasks .files = .ok owner

/-- The caller owns each resource that is copied, or what it uses of it is empty. -/
structure OwnsCopied (s : Forest) (t : TaskId) (flags : Word) : Prop where
  memory : hasFlag flags cloneVm = false →
    (s.vm t).links.clonedVm = false ∨ s.usedMemory t = .ok []
  dirs : hasFlag flags cloneFs = false →
    (s.vm t).links.clonedFs = false ∨ s.usedDirs t = .ok .empty
  descriptors : hasFlag flags cloneFiles = false →
    (s.vm t).links.clonedFiles = false ∨ s.usedDescriptors t = .ok fun _ => none

/-! ## What the child gets -/

/-- The memory of the child looks like that of the caller itself. -/
theorem Cloned.memoryView_child (hs : WellFormed s) (hc : Cloned s t args alloc answers s')
    (hflag : hasFlag args.flags cloneVm = false) :
    memoryView s'.heap (s'.vm s.nrTasks).memory = memoryView s.heap (s.vm t).memory := by
  obtain ⟨⟨heap, pmrOps⟩, hcopy, h⟩ := bind_eq_ok.mp (hc.memory_copied hflag)
  simp only [pure_eq_ok, Except.ok.injEq, Prod.mk.injEq] at h
  obtain ⟨rfl, hmemory⟩ := h
  rw [← hmemory]
  exact duplicateRegions_view (hs.liveRegions t) hcopy

/-- A shared resource has the owner that it has for the caller. -/
theorem Cloned.same_owner (hc : Cloned s t args alloc answers s') (hint : LinkageHint)
    (hs : WellFormed s) (ht : t < s.nrTasks)
    (hgo : (s'.vm s.nrTasks).links.shouldGo hint = true) :
    ∃ owner, getLinkedVm s' t hint = .ok owner ∧ getLinkedVm s' s.nrTasks hint = .ok owner := by
  have hs' := hs.cloned ht hc
  have hnext : s'.next hint s.nrTasks = some t := by
    rw [Forest.next, hgo, hc.links]
    rfl
  obtain ⟨owner, howns⟩ := hs'.exists_owner hint t
  have hchild : s.nrTasks < s'.nrTasks := by rw [hc.nrTasks]; exact Nat.lt_succ_self _
  refine ⟨owner, (hs'.getLinkedVm_iff (Nat.lt_trans ht hchild)).mpr howns, ?_⟩
  exact (hs'.getLinkedVm_iff hchild).mpr (.up hnext howns)

/-- A copy of the caller's own value is a copy of the used one exactly if the caller
owns it or uses the empty one. -/
theorem used_eq_own_iff {α : Type} {used : Result α} {own empty : α} {shared : Bool}
    (howner : shared = false → used = .ok own) (hshared : shared = true → own = empty) :
    used = .ok own ↔ shared = false ∨ used = .ok empty := by
  cases shared with
  | false => simp [howner rfl]
  | true => simp [hshared rfl]

/-- A clone copies what the caller uses exactly if the caller owns what is copied, or
what it uses is empty. -/
theorem cloneTask_copies_iff {pid : Word} (hreach : (forestRuns root).Reachable s)
    (ht : t < s.nrTasks) (h : s.cloneTask t args alloc answers = .ok (pid, s')) :
    CopiesUsed s t args.flags s' ↔ OwnsCopied s t args.flags := by
  have hs := wellFormed_of_reachable hreach
  have hc := cloneTask_ok h
  have hmemory : s.usedMemory t = .ok (memoryView s.heap (s.vm t).memory) ↔
      (s.vm t).links.clonedVm = false ∨ s.usedMemory t = .ok [] := by
    refine used_eq_own_iff (fun hown => ?_) fun hshared => ?_
    · rw [Forest.usedMemory, hs.getLinkedVm_self .vm ht hown]
      rfl
    · rw [hs.memory_of_shared t hshared]
      rfl
  have hdirs : s.usedDirs t = .ok (s.vm t).dirs ↔
      (s.vm t).links.clonedFs = false ∨ s.usedDirs t = .ok .empty := by
    refine used_eq_own_iff (fun hown => ?_) fun hshared => hs.dirs_of_shared t hshared
    rw [Forest.usedDirs, hs.getLinkedVm_self .fs ht hown]
    rfl
  have hfiles : s.usedDescriptors t = .ok (s.vm t).files.descriptors ↔
      (s.vm t).links.clonedFiles = false ∨ s.usedDescriptors t = .ok fun _ => none := by
    refine used_eq_own_iff (fun hown => ?_) fun hshared => ?_
    · rw [Forest.usedDescriptors, hs.getLinkedVm_self .files ht hown]
      rfl
    · rw [hs.files_of_shared t hshared]
      rfl
  constructor
  · intro hcopies
    refine ⟨fun hflag => ?_, fun hflag => ?_, fun hflag => ?_⟩
    · rw [← hmemory, ← hc.memoryView_child hs hflag]
      exact hcopies.memory hflag
    · have hcopy := hcopies.dirs hflag
      rw [hc.dirs, hflag] at hcopy
      exact hdirs.mp hcopy
    · rw [← hfiles, ← duplicateFiles_descriptors (hc.files_copied hflag)]
      exact hcopies.descriptors hflag
  · intro howns
    refine ⟨fun hflag => ?_, fun hflag => ?_, fun hflag => ?_, fun hflag => ?_, fun hflag => ?_,
      fun hflag => ?_⟩
    · rw [hc.memoryView_child hs hflag]
      exact hmemory.mpr (howns.memory hflag)
    · rw [hc.dirs, hflag]
      exact hdirs.mpr (howns.dirs hflag)
    · rw [duplicateFiles_descriptors (hc.files_copied hflag)]
      exact hfiles.mpr (howns.descriptors hflag)
    · exact hc.same_owner .vm hs ht (by rw [hc.links]; exact hflag)
    · exact hc.same_owner .fs hs ht (by rw [hc.links]; exact hflag)
    · exact hc.same_owner .files hs ht (by rw [hc.links]; exact hflag)

/-- The initial task clones with a shared memory.  The child gets its directories and
descriptors. -/
theorem cloneTask_copies_iff_initial :
    ∃ s pid s', (forestRuns (.ofBuffer [47, 115, 114, 118])).Reachable s ∧
      s.cloneTask 0 ⟨cloneVm, 0, 0, 0, 0⟩ (.lowest 8) (fun _ => .returns 6) = .ok (pid, s') ∧
      CopiesUsed s 0 cloneVm s' := by
  have hrun : (do
      let s ← applicationSandboxInit (bareBoot (.ofBuffer [47, 115, 114, 118])) (.lowest 8)
      let (_, s') ← s.cloneTask 0 ⟨cloneVm, 0, 0, 0, 0⟩ (.lowest 8) fun _ => .returns 6
      return s'.nrTasks) = .ok 2 := by
    decide +kernel
  simp only [bind_eq_ok] at hrun
  obtain ⟨s, hboot, ⟨pid, s'⟩, hclone, -⟩ := hrun
  obtain ⟨-, hnr, -, hlinks⟩ := applicationSandboxInit_ok hboot
  have hreach : (forestRuns (.ofBuffer [47, 115, 114, 118])).Reachable s :=
    .init ⟨_, _, rfl, hboot⟩
  refine ⟨s, pid, s', hreach, hclone, ?_⟩
  refine (cloneTask_copies_iff hreach (by rw [hnr]; decide) hclone).mpr ?_
  rw [show cloneVm = (⟨cloneVm, 0, 0, 0, 0⟩ : CloneArgs).flags from rfl]
  exact ⟨fun _ => Or.inl (by rw [hlinks]), fun _ => Or.inl (by rw [hlinks]),
    fun _ => Or.inl (by rw [hlinks])⟩

/-- A thread that shares everything forks.  The child gets no memory, no directories and
no descriptors. -/
theorem fork_of_thread_copies_nothing :
    ∃ s pid s', (forestRuns (.ofBuffer [47, 115, 114, 118])).Reachable s ∧ 1 < s.nrTasks ∧
      s.cloneTask 1 ⟨0, 0, 0, 0, 0⟩ (.lowest 8) (fun _ => .returns 6) = .ok (pid, s') ∧
      ¬ CopiesUsed s 1 0 s' := by
  have hrun : (do
      let s₀ ← applicationSandboxInit (bareBoot (.ofBuffer [47, 115, 114, 118])) (.lowest 8)
      let s ← TaskCall.run s₀ 0 (.clone ⟨cloneVm ||| cloneFs ||| cloneFiles, 0, 0, 0, 0⟩ (.lowest 8)
        fun _ => .returns 6)
      let (_, s') ← s.cloneTask 1 ⟨0, 0, 0, 0, 0⟩ (.lowest 8) fun _ => .returns 6
      return (s.nrTasks, s.usedDirs 1, (s'.vm 2).dirs)) =
        .ok (2, .ok ⟨.ofBuffer [47, 115, 114, 118], slashString⟩, .empty) := by
    decide +kernel
  simp only [bind_eq_ok] at hrun
  obtain ⟨s₀, hboot, s, hthread, ⟨pid, s'⟩, hfork, hdirs⟩ := hrun
  simp only [pure_eq_ok, Except.ok.injEq, Prod.mk.injEq] at hdirs
  obtain ⟨hnr, hused, hchild⟩ := hdirs
  obtain ⟨-, hnr₀, -, -⟩ := applicationSandboxInit_ok hboot
  have hinit : (forestRuns (.ofBuffer [47, 115, 114, 118])).Reachable s₀ :=
    .init ⟨_, _, rfl, hboot⟩
  have hreach := hinit.step (a := (0, _)) ⟨by rw [hnr₀]; decide, hthread⟩
  refine ⟨s, pid, s', hreach, by rw [hnr]; decide, hfork, fun hcopies => ?_⟩
  have hcopy := hcopies.dirs (by decide)
  rw [hused, hnr, hchild] at hcopy
  exact absurd hcopy (by decide)

end Hyrule
