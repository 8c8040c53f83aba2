import Hyrule.Fs.Slots
import Hyrule.Task.FileIntegrity

/-!
# Slots of the file tables of a forest

`do_openat` and `do_fcntl_duplicate_fd` put a slot back by clearing it when the host
refuses.  This is what the slot was, since a slot that is not valid is zero in every
table of every run: `dup3` fills a slot that it has closed, and a fork copies into a
table that is zero.
-/

namespace Hyrule

open Lib Lib.Result

variable {root : CString} {s s' : Forest} {t : TaskId}

/-! ## What is expected -/

/-- Every table is cleared. -/
def Forest.Cleared (s : Forest) : Prop := ∀ t, (s.vm t).files.Cleared

theorem FileCall.run_cleared {dirs : Directories} {files files' : FileTable} {rv : Word}
    {call : FileCall} (h : call.run dirs files = .ok (rv, files')) (hcleared : files.Cleared) :
    files'.Cleared := by
  cases call with
  | openat dirfd path flags mode answer => exact hcleared.doOpenat h
  | close fd answer => exact hcleared.doClose h
  | dup fd answer => exact hcleared.callDup h
  | dup3 oldFd newFd closed answer => exact hcleared.callDup3 h
  | fcntlDuplicateFd fd answer => exact hcleared.doFcntlDuplicateFd h

namespace Forest.Cleared

/-- One table changes. -/
theorem change (h : s.Cleared) (hself : (s'.vm t).files.Cleared)
    (hothers : ∀ u ≠ t, (s'.vm u).files = (s.vm u).files) : s'.Cleared := by
  intro u
  by_cases hu : u = t
  · rw [hu]
    exact hself
  · rw [hothers u hu]
    exact h u

theorem file (h : s.Cleared) {call : FileCall} (hrun : (TaskCall.file call).run s t = .ok s') :
    s'.Cleared := by
  obtain ⟨dirsOwner, -, hrun⟩ := bind_eq_ok.mp hrun
  obtain ⟨owner, -, hrun⟩ := bind_eq_ok.mp hrun
  obtain ⟨⟨rv, files⟩, hcall, hrun⟩ := bind_eq_ok.mp hrun
  cases hrun
  refine h.change (t := owner) ?_ fun u hu => ?_
  · simp only [Forest.setVm, Function.update_self]
    exact FileCall.run_cleared hcall (h owner)
  · simp only [Forest.setVm, Function.update_of_ne hu]

theorem cloned {args : CloneArgs} {alloc : Allocator} {answers : Fin maxFilesNr → HostAnswer}
    (h : s.Cleared) (hc : Cloned s t args alloc answers s') : s'.Cleared := by
  refine h.change (t := s.nrTasks) ?_ fun u hu => ?_
  · cases hflag : hasFlag args.flags cloneFiles with
    | true =>
      rw [hc.files_shared hflag]
      exact .zero
    | false => exact .duplicateFiles (hc.files_copied hflag)
  · obtain ⟨n, hvm⟩ := hc.others u hu
    rw [hvm]

/-- A call keeps the tables cleared. -/
theorem run (h : s.Cleared) {call : TaskCall} (hrun : call.run s t = .ok s') : s'.Cleared := by
  cases call with
  | clone args alloc answers =>
    obtain ⟨⟨pid, s₁⟩, hclone, hrun⟩ := bind_eq_ok.mp hrun
    cases hrun
    exact h.cloned (cloneTask_ok hclone)
  | file call => exact h.file hrun
  | chdir | execve | mmap | munmap | brk | store | instructions =>
    intro u
    rw [TaskCall.run_files hrun (by simp) (by simp) u]
    exact h u

end Forest.Cleared

/-! ## Start-up -/

end Hyrule
