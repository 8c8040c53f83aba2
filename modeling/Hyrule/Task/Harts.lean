import Hyrule.Task.Linkage
import Hyrule.Task.Sandbox

/-!
# The harts that system calls leave

What the system calls write to the harts of the tasks: `clone` copies the hart of its
caller and then writes `a0` and `sp`, `execve` clears the registers and then writes
`sp`, and no other handler writes a hart.  So a property of harts that these writes
keep is kept by every handler, for all tasks (`SysHandler.run_allHarts`).
-/

namespace Hyrule

open Lib Lib.Result

variable {P : Hart → Prop}

/-- A property of harts that the system calls keep. -/
structure KeptByCalls (P : Hart → Prop) : Prop where
  initial : P (.initial 0)
  setRegister : ∀ {hart : Hart} {rd : RegisterIndex} (value : Word), rd ≠ 0 → P hart →
    P (hart.setRegister rd value)
  jump : ∀ {hart : Hart} (pc : Word), P hart → P { hart with pc }
  renumber : ∀ {hart : Hart}, P hart → P { hart with hartId := 0 }
  reset : ∀ {hart : Hart}, P hart → P hart.reset

/-! ## The tasks -/

/-- Every hart has a property. -/
def Forest.AllHarts (P : Hart → Prop) (s : Forest) : Prop := ∀ t, P (s.vm t).hart

namespace Forest.AllHarts

variable {s s' : Forest} {t : TaskId}

/-- No hart changes. -/
theorem of_eq (h : s.AllHarts P) (heq : ∀ u, (s'.vm u).hart = (s.vm u).hart) : s'.AllHarts P :=
  fun u => (heq u).symm ▸ h u

theorem setVm (h : s.AllHarts P) {vm : Vm} (hvm : P vm.hart) : (s.setVm t vm).AllHarts P := by
  intro u
  by_cases hu : u = t
  · subst hu
    simpa only [Forest.setVm, Function.update_self] using hvm
  · simpa only [Forest.setVm, Function.update_of_ne hu] using h u

/-- The child starts with a copy of the registers of its parent. -/
theorem cloneTask (hP : KeptByCalls P) (h : s.AllHarts P) {args : CloneArgs} {alloc : Allocator}
    {answers : Fin maxFilesNr → HostAnswer} {pid : Word}
    (hclone : s.cloneTask t args alloc answers = .ok (pid, s')) : s'.AllHarts P := by
  intro u
  by_cases hu : u = s.nrTasks
  · obtain ⟨-, -, -, -, -, hhart⟩ := cloneTask_child hclone
    have hcopied : P ((s.vm t).hart.setRegister a0 0) := hP.setRegister 0 (by decide) (h t)
    have hcloned : P (s.vm t).hart.cloned := hP.renumber (hP.jump ((s.vm t).hart.pc + 4) hcopied)
    rw [hu, hhart]
    split
    next => exact hP.setRegister _ (by decide) hcloned
    next => exact hcloned
  · obtain ⟨refCount, hvm⟩ := (cloneTask_ok hclone).others u hu
    rw [hvm]
    exact h u

theorem loadTask (hP : KeptByCalls P) (h : s.AllHarts P) {alloc : Allocator}
    {content : Option (List Byte)} {argv envp : List CString}
    (hload : loadTask alloc s t content argv envp = .ok s') : s'.AllHarts P := by
  obtain ⟨⟨heap₁, hart₁, memory⟩, hprogram, hload⟩ := bind_eq_ok.mp hload
  obtain ⟨⟨heap₂, hart₂⟩, henv, hload⟩ := bind_eq_ok.mp hload
  cases hload
  obtain ⟨bytes, -, rfl⟩ := programInit_hart hprogram
  obtain rfl := envSetup_hart henv
  have hstart := hP.jump (programHeader bytes).entry
    (hP.setRegister initialStackTop (by decide : sp ≠ 0) (h t))
  exact h.setVm (t := t) (hP.setRegister _ (by decide) hstart)

theorem callExecve (hP : KeptByCalls P) (h : s.AllHarts P) {args : ExecveArgs} {alloc : Allocator}
    {hostFiles : CString → Option (List Byte)}
    (hexecve : callExecve s t args alloc hostFiles = .ok s') : s'.AllHarts P := by
  obtain ⟨envp, -, hexecve⟩ := bind_eq_ok.mp hexecve
  obtain ⟨owner, -, hexecve⟩ := bind_eq_ok.mp hexecve
  obtain ⟨s₁, hreclaim, hexecve⟩ := bind_eq_ok.mp hexecve
  obtain ⟨hostCpath, -, hexecve⟩ := bind_eq_ok.mp hexecve
  have h₁ : s₁.AllHarts P :=
    h.of_eq (reclaimTask_sameField (fun _ _ _ _ => rfl) hreclaim).same
  exact (h₁.setVm (t := t) (hP.reset (h₁ t))).loadTask hP hexecve

theorem onMemory (h : s.AllHarts P)
    {call : HostHeap → VirtualMemory → Result (HostHeap × VirtualMemory)}
    (hcall : onMemory s t call = .ok s') : s'.AllHarts P :=
  h.of_eq (onMemory_sameField (fun _ _ => rfl) hcall).same

theorem chdir (h : s.AllHarts P) {path : CString}
    (hcall : (TaskCall.chdir path).run s t = .ok s') : s'.AllHarts P := by
  obtain ⟨owner, -, hcall⟩ := bind_eq_ok.mp hcall
  obtain ⟨cwd, -, hcall⟩ := bind_eq_ok.mp hcall
  cases hcall
  exact h.setVm (h owner)

end Forest.AllHarts

/-- The first task starts with the initial hart. -/
theorem applicationSandboxInit_allHarts (hP : KeptByCalls P) {boot : Boot} {alloc : Allocator}
    {s : Forest} (h : applicationSandboxInit boot alloc = .ok s) : s.AllHarts P := by
  have hzero : (⟨fun _ => .zero, 1, 1, fun _ => none⟩ : Forest).AllHarts P := fun _ => hP.initial
  obtain ⟨s₁, hload, h⟩ := bind_eq_ok.mp h
  obtain ⟨root, -, h⟩ := bind_eq_ok.mp h
  obtain ⟨root', -, h⟩ := bind_eq_ok.mp h
  obtain ⟨files, -, h⟩ := bind_eq_ok.mp h
  cases h
  have h₁ := hzero.loadTask hP hload
  exact h₁.setVm (t := 0) (h₁ 0)

/-! ## The handlers -/

section Calls

variable {s s' : Sandbox} {t : TaskId} {host : HostSide} {value : Option Word}

/-- What a handler leaves of the harts and of the reservations. -/
def Sandbox.KeepsHarts (P : Hart → Prop) (s s' : Sandbox) : Prop :=
  s'.forest.AllHarts P ∧ s'.reservations = s.reservations

theorem memoryCall_keepsHarts
    {call : HostHeap → VirtualMemory → Result (Word × HostHeap × VirtualMemory)}
    (h : s.forest.AllHarts P) (hcall : memoryCall s t call = .ok (value, s')) :
    s.KeepsHarts P s' := by
  obtain ⟨owner, -, hcall⟩ := bind_eq_ok.mp hcall
  obtain ⟨⟨rv, heap, memory⟩, -, hcall⟩ := bind_eq_ok.mp hcall
  cases hcall
  exact ⟨h.setVm (t := owner) (h owner), rfl⟩

theorem fileCall_keepsHarts {call : FileCall} (h : s.forest.AllHarts P)
    (hcall : fileCall s t call = .ok (value, s')) : s.KeepsHarts P s' := by
  obtain ⟨dirsOwner, -, hcall⟩ := bind_eq_ok.mp hcall
  obtain ⟨owner, -, hcall⟩ := bind_eq_ok.mp hcall
  obtain ⟨⟨rv, files⟩, -, hcall⟩ := bind_eq_ok.mp hcall
  cases hcall
  exact ⟨h.setVm (t := owner) (h owner), rfl⟩

theorem callFnctl_keepsHarts {fd cmd : Word} (h : s.forest.AllHarts P)
    (hcall : callFnctl s t host fd cmd = .ok (value, s')) : s.KeepsHarts P s' := by
  have honHost : fcntlOnHost s t fd host.answer = .ok (value, s') → s.KeepsHarts P s' := by
    intro hcall
    obtain ⟨owner, -, hcall⟩ := bind_eq_ok.mp hcall
    obtain ⟨bad, -, hcall⟩ := bind_eq_ok.mp hcall
    split at hcall
    next =>
      cases hcall
      exact ⟨h, rfl⟩
    next =>
      cases hcall
      exact ⟨h, rfl⟩
  unfold callFnctl at hcall
  split at hcall
  next => exact fileCall_keepsHarts h hcall
  next => exact fileCall_keepsHarts h hcall
  next => exact honHost hcall
  next => exact honHost hcall
  next => exact honHost hcall
  next =>
    cases hcall
    exact ⟨h, rfl⟩

/-- The stores into guest buffers, one after the other. -/
theorem bufferCall_keepsHarts (h : s.forest.AllHarts P)
    (hcall : bufferCall s t host = .ok (value, s')) : s.KeepsHarts P s' := by
  obtain ⟨forest, hstores, hcall⟩ := bind_eq_ok.mp hcall
  cases hcall
  refine ⟨?_, rfl⟩
  change forest.AllHarts P
  generalize s.forest = first at h hstores
  generalize host.stores = stores at hstores
  induction stores generalizing first with
  | nil =>
    cases hstores
    exact h
  | cons store stores ih =>
    rw [List.foldlM_cons] at hstores
    obtain ⟨forest₁, hstore, hstores⟩ := bind_eq_ok.mp hstores
    simp only [TaskCall.run] at hstore
    exact ih _ (h.onMemory hstore) hstores

/-- A handler keeps a property of all harts, and the reservations. -/
theorem SysHandler.run_keepsHarts (hP : KeptByCalls P) {arg : SyscallArgs} {handler : SysHandler}
    (h : s.forest.AllHarts P) (hrun : handler.run s t host arg = .ok (value, s')) :
    s.KeepsHarts P s' := by
  cases handler with
  | clone =>
    obtain ⟨⟨pid, forest⟩, hclone, hrun⟩ := bind_eq_ok.mp hrun
    cases hrun
    exact ⟨h.cloneTask hP hclone, rfl⟩
  | execve =>
    obtain ⟨forest, hexecve, hrun⟩ := bind_eq_ok.mp hrun
    cases hrun
    exact ⟨h.callExecve hP hexecve, rfl⟩
  | chdir =>
    obtain ⟨forest, hchdir, hrun⟩ := bind_eq_ok.mp hrun
    cases hrun
    exact ⟨h.chdir hchdir, rfl⟩
  | setTidAddress =>
    cases hrun
    exact ⟨h.setVm (h t), rfl⟩
  | mmap | munmap | brk =>
    rw [SysHandler.run] at hrun
    exact memoryCall_keepsHarts h hrun
  | openat | close | dup | dup3 =>
    rw [SysHandler.run] at hrun
    exact fileCall_keepsHarts h hrun
  | fnctl =>
    rw [SysHandler.run] at hrun
    exact callFnctl_keepsHarts h hrun
  | getcwd | ioctl | unlinkat | getdents64 | lseek | read | write | writev | sendfile
  | readlinkat | clockGettime | uname | getrlimit | gettimeofday | wait4 | statx =>
    rw [SysHandler.run] at hrun
    exact bufferCall_keepsHarts h hrun
  | exit | exitGroup | getpid | getppid | getpgid | faccessat | setRobustList | sigaction
  | sigprocmask | getuid | mprotect | madvice | pselect | kill | sysinfo | socket =>
    cases hrun
    exact ⟨h, rfl⟩

/-- A system call does so too. -/
theorem doSyscall_keepsHarts (hP : KeptByCalls P) {number : Word} {arg : SyscallArgs}
    (h : s.forest.AllHarts P) (hcall : doSyscall s t host number arg = .ok (value, s')) :
    s.KeepsHarts P s' := by
  obtain ⟨-, -, hcall⟩ := bind_eq_ok.mp hcall
  obtain ⟨handler, -, hcall⟩ := bind_eq_ok.mp hcall
  exact SysHandler.run_keepsHarts hP h hcall

end Calls

end Hyrule
