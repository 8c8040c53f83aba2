import Hyrule.Task.GuestMemory

/-!
# The registers behind a clone

What an `ecall` of `clone` leaves in the registers of the parent and of the child.  The
parent's are written by the block of the `ecall`: `a0` gets what the call returns, and the
pc moves on.  The child's are written inside the call: `task_cpu_init` copies those of the
parent, clears `a0` and moves the pc on, and `task_threads_init` writes `sp`.

The stack of the caller's arguments is for threads: `sp` is written if `CLONE_THREAD` is
set, and a null stack is then an assertion.  Without that flag the child starts on the stack
pointer of its parent, whatever `child_stack` is.  Nothing reads `tls_addr`, so `tp` is the
parent's (`clone_registers`).
-/

namespace Hyrule

open Lib Lib.X86 Riscv

/-! ## The block of an `ecall` -/

section Ecall

variable {ω : Type} {base : Quad} {callbacks : Callbacks ω} {s : X86.State (Machine ω)}
  {params : List Word}

/-- Behind a call that returns, the pc moves on.  Nothing follows one that leaves. -/
theorem ecallCode_ok {sc : X86.State (Machine ω) × Control} (hs : Entered base s.regs)
    (h : exec (hartBus base callbacks) params Template.ecall.code (s, .run) = .ok sc) :
    ∃ args m, (∃ regs, callbacks .ecallCallback args s.mem = .ok (.returns regs, m) ∧
        sc.1.mem = m.withHart { m.hart with pc := m.hart.pc + 4 }) ∨
      callbacks .ecallCallback args s.mem = .ok (.leaves, m) ∧ sc.1.mem = m := by
  generalize hmoved : s.setQuad .rdi (s.regs .r12) = moved
  have hmem : moved.mem = s.mem := by rw [← hmoved]; rfl
  have hentered : Entered base moved.regs := by
    rw [← hmoved]
    constructor <;> simp [hs.r15, hs.r14, hs.r12]
  have hcode : exec (hartBus base callbacks) params
      (callC .ecallCallback ++ proceedToNextInstruction) (moved, .run) = .ok sc := by
    rw [← hmoved]
    exact h
  cases hcall : callbacks .ecallCallback moved.regs moved.mem with
  | error e =>
    rw [exec_append] at hcode
    simp only [callC, exec_run, step, hartBus, hcall] at hcode
    cases hcode
  | ok called =>
    obtain ⟨outcome, m⟩ := called
    rw [hmem] at hcall
    cases outcome with
    | returns regs =>
      refine ⟨moved.regs, m, Or.inl ⟨regs, hcall, ?_⟩⟩
      rw [← hmem] at hcall
      have hpc : (⟨keptByCall moved.regs regs, none, m⟩ : X86.State (Machine ω)).regs .r14 =
          base + offsetOfPc := (hentered.keptByCall regs).r14
      rw [exec_append, exec_callC hcall, X86.ok_bind, exec_proceedToNextInstruction hpc] at hcode
      cases hcode
      rfl
    | leaves =>
      refine ⟨moved.regs, m, Or.inr ⟨hcall, ?_⟩⟩
      rw [← hmem] at hcall
      rw [exec_callC_leaves hcall] at hcode
      cases hcode
      rfl

end Ecall

/-! ## The registers -/

/-- `tp`. -/
def tp : RegisterIndex := 4

/-- `CLONE_SETTLS`, which no source names. -/
def cloneSettls : Word := 0x80000

/-- The parent goes on behind the `ecall` with the pid of the child in `a0`, and the child
starts there with 0.  The other registers are the parent's, but for the stack pointer and the
thread pointer of the child. -/
structure CloneRegisters (s : Sandbox) (t : TaskId) (childSp childTp : Word) (s' : Sandbox) :
    Prop where
  parentA0 : (s'.forest.vm t).hart.registers a0 = (s'.forest.vm s.forest.nrTasks).pid
  parentRegisters : ∀ i, i ≠ a0 →
    (s'.forest.vm t).hart.registers i = (s.forest.vm t).hart.registers i
  parentPc : (s'.forest.vm t).hart.pc = (s.forest.vm t).hart.pc + 4
  childA0 : (s'.forest.vm s.forest.nrTasks).hart.registers a0 = 0
  childSp : (s'.forest.vm s.forest.nrTasks).hart.registers sp = childSp
  childTp : (s'.forest.vm s.forest.nrTasks).hart.registers tp = childTp
  childRegisters : ∀ i, i ≠ a0 → i ≠ sp → i ≠ tp →
    (s'.forest.vm s.forest.nrTasks).hart.registers i = (s.forest.vm t).hart.registers i
  childPc : (s'.forest.vm s.forest.nrTasks).hart.pc = (s'.forest.vm t).hart.pc

theorem Sandbox.setHart_self (s : Sandbox) (t : TaskId) :
    s.setHart t (s.forest.vm t).hart = s := by
  simp only [Sandbox.setHart, Sandbox.withForest, Forest.setVm, Function.update_eq_self]

section Started

variable {hart : Hart} {i : RegisterIndex} {thread : Bool} {stack : Word}

theorem Hart.cloned_a0 : hart.cloned.registers a0 = 0 :=
  Hart.setRegister_self hart a0 0

theorem Hart.cloned_of_ne (hi : i ≠ a0) : hart.cloned.registers i = hart.registers i :=
  Function.update_of_ne hi ..

theorem Hart.started_sp :
    (if thread then hart.setRegister sp stack else hart).registers sp =
      if thread then stack else hart.registers sp := by
  split
  next => exact Hart.setRegister_self ..
  next => rfl

theorem Hart.started_of_ne (hi : i ≠ sp) :
    (if thread then hart.setRegister sp stack else hart).registers i = hart.registers i := by
  split
  next => exact Function.update_of_ne hi ..
  next => rfl

theorem Hart.started_pc :
    (if thread then hart.setRegister sp stack else hart).pc = hart.pc := by
  split
  next => rfl
  next => rfl

end Started

section Clone

variable {run : InstructionRun} {s s' : Sandbox}

/-- The sandbox behind an `ecall` of `clone`. -/
theorem InstructionRun.next_clone (hdecode : decode run.instruction = some .ecall)
    (hnumber : (s.forest.vm run.task).hart.registers a7 = 220) (hnext : run.next s = .ok s') :
    ∃ pid forest, s.forest.cloneTask run.task (s.forest.vm run.task).hart.cloneArgs run.host.alloc
        run.host.copies = .ok (pid, forest) ∧
      s' = (s.withForest forest).setHart run.task
        { (forest.vm run.task).hart.setRegister a0 pid with
          pc := (forest.vm run.task).hart.pc + 4 } := by
  have hb : translate run.address run.instruction = .ok ⟨.ecall, [run.address]⟩ :=
    translate_of_decode hdecode
  rw [InstructionRun.next, hb, lift_ok, X86.ok_bind] at hnext
  obtain ⟨⟨x, c⟩, hexec, hnext⟩ := X86.bind_eq_ok.mp hnext
  cases hnext
  have hhandler : handlers ((s.forest.vm run.task).hart.registers a7) = some .clone := by
    rw [hnumber]
    rfl
  have hclone : ∀ {outcome m}, ecallCallback run.task run.host (run.entry s).mem =
      .ok (outcome, m) → ∃ pid forest, s.forest.cloneTask run.task
        (s.forest.vm run.task).hart.cloneArgs run.host.alloc run.host.copies = .ok (pid, forest) ∧
      outcome = .returns run.host.clobbered ∧
      m.hart = (forest.vm run.task).hart.setRegister a0 pid ∧ m.world = s.withForest forest := by
    intro outcome m hcall
    obtain ⟨⟨value, world⟩, hsyscall, hcall⟩ := Result.bind_eq_ok.mp hcall
    rw [run.entry_hart, show (run.entry s).mem.world = s from rfl, Sandbox.setHart_self, doSyscall,
      hhandler] at hsyscall
    obtain ⟨-, -, hsyscall⟩ := Result.bind_eq_ok.mp hsyscall
    obtain ⟨handler, hfound, hsyscall⟩ := Result.bind_eq_ok.mp hsyscall
    cases hfound
    obtain ⟨⟨pid, forest⟩, hclone, hsyscall⟩ := Result.bind_eq_ok.mp hsyscall
    cases hsyscall
    cases hcall
    exact ⟨pid, forest, hclone, rfl, rfl, rfl⟩
  obtain ⟨args, m, ⟨regs, hcall, hmem⟩ | ⟨hcall, -⟩⟩ := ecallCode_ok (run.entry_entered s) hexec
  · obtain ⟨pid, forest, hclone, -, hhart, hworld⟩ := hclone hcall
    refine ⟨pid, forest, hclone, ?_⟩
    simp only at hmem
    rw [hmem]
    simp only [Machine.withHart, hhart, hworld]
    rfl
  · obtain ⟨pid, forest, -, houtcome, -⟩ := hclone hcall
    cases houtcome

/-- Behind an `ecall` of `clone` that completes, with any registers and any arguments, the
stack pointer of the child is `child_stack` for a thread and the parent's otherwise, and its
thread pointer is the parent's. -/
theorem clone_registers (hstep : sandboxRuns.step s run s')
    (hdecode : decode run.instruction = some .ecall)
    (hnumber : (s.forest.vm run.task).hart.registers a7 = 220) :
    CloneRegisters s run.task
        (if hasFlag (s.forest.vm run.task).hart.cloneArgs.flags cloneThread then
          (s.forest.vm run.task).hart.cloneArgs.childStack
        else (s.forest.vm run.task).hart.registers sp)
        ((s.forest.vm run.task).hart.registers tp) s' ∧
      (hasFlag (s.forest.vm run.task).hart.cloneArgs.flags cloneThread = true →
        (s.forest.vm run.task).hart.cloneArgs.childStack ≠ 0) := by
  obtain ⟨htask, -, hnext⟩ := hstep
  obtain ⟨pid, forest, hclone, rfl⟩ := run.next_clone hdecode hnumber hnext
  have hne : s.forest.nrTasks ≠ run.task := htask.ne'
  have hparent : (forest.vm run.task).hart = (s.forest.vm run.task).hart := by
    obtain ⟨refCount, hvm⟩ := (cloneTask_ok hclone).others run.task htask.ne
    rw [hvm]
  obtain ⟨-, hpid, -, rfl, hstack, hchild⟩ := cloneTask_child hclone
  refine ⟨?_, hstack⟩
  have hparent' : ∀ hart, (((s.withForest forest).setHart run.task hart).forest.vm run.task).hart =
      hart := by
    intro hart
    simp [Sandbox.setHart, Sandbox.withForest, Forest.setVm]
  have hchild' : ∀ hart, ((s.withForest forest).setHart run.task hart).forest.vm s.forest.nrTasks =
      forest.vm s.forest.nrTasks := by
    intro hart
    simp [Sandbox.setHart, Sandbox.withForest, Forest.setVm, hne]
  constructor
  · rw [hparent', hchild', hpid]
    simp
  · intro i hi
    rw [hparent']
    simp [Hart.setRegister, hi, hparent]
  · rw [hparent', hparent]
  · rw [hchild', hchild, Hart.started_of_ne (by decide), Hart.cloned_a0]
  · rw [hchild', hchild, Hart.started_sp, Hart.cloned_of_ne (by decide)]
  · rw [hchild', hchild, Hart.started_of_ne (by decide), Hart.cloned_of_ne (by decide)]
  · intro i ha0 hsp htp
    rw [hchild', hchild, Hart.started_of_ne hsp, Hart.cloned_of_ne ha0]
  · rw [hchild', hchild, hparent', hparent, Hart.started_pc]
    rfl

end Clone

/-- A task that calls `clone` with the given flags, a stack at `0x3000` and thread storage at
`0x4000`, with its own stack pointer at `0x2000`. -/
def cloningSandbox (flags : Word) : Sandbox :=
  smallSandbox.setHart 0 (((((Hart.initial 0).setRegister a7 220).setRegister a0 flags).setRegister
    11 0x3000).setRegister 13 0x4000 |>.setRegister sp 0x2000)

/-- `ecall`. -/
def ecallRun : InstructionRun := firstTaskRuns 0x73

/-- The flags of `pthread_create`. -/
theorem clone_registers_pthread :
    ∃ s', sandboxRuns.step (cloningSandbox 0x7d0f00) ecallRun s' ∧
      CloneRegisters (cloningSandbox 0x7d0f00) 0 0x3000 0 s' := by
  have hrun : (ecallRun.next (cloningSandbox 0x7d0f00)).toOption.isSome = true := by
    decide +kernel
  obtain ⟨s', hnext⟩ := Option.isSome_iff_exists.mp hrun
  have hstep : sandboxRuns.step (cloningSandbox 0x7d0f00) ecallRun s' :=
    ⟨by decide, List.not_mem_nil, Result.toOption_eq_some.mp hnext⟩
  exact ⟨s', hstep, (clone_registers hstep rfl rfl).1⟩

/-- With `CLONE_VM`, `CLONE_FS` and `CLONE_FILES` the child of a clone with a stack starts on
its parent's, and with `CLONE_SETTLS` too it starts with its parent's thread pointer. -/
theorem clone_keeps_sp_and_tp :
    (¬ ∀ s run s', sandboxRuns.step s run s' → decode run.instruction = some .ecall →
      (s.forest.vm run.task).hart.registers a7 = 220 →
      CloneRegisters s run.task
        (if (s.forest.vm run.task).hart.cloneArgs.childStack ≠ 0 then
          (s.forest.vm run.task).hart.cloneArgs.childStack
        else (s.forest.vm run.task).hart.registers sp)
        (if hasFlag (s.forest.vm run.task).hart.cloneArgs.flags cloneSettls then
          (s.forest.vm run.task).hart.cloneArgs.tlsAddr
        else (s.forest.vm run.task).hart.registers tp) s') ∧
      ∃ s', sandboxRuns.step (cloningSandbox 0x7d0f00) ecallRun s' ∧
        hasFlag ((cloningSandbox 0x7d0f00).forest.vm 0).hart.cloneArgs.flags cloneSettls = true ∧
        ((cloningSandbox 0x7d0f00).forest.vm 0).hart.cloneArgs.tlsAddr = 0x4000 ∧
        (s'.forest.vm 1).hart.registers sp = 0x3000 ∧ (s'.forest.vm 1).hart.registers tp = 0 := by
  have hchild : ∀ flags stack, (ecallRun.next (cloningSandbox flags)).toOption.map (fun s' =>
      ((s'.forest.vm 1).hart.registers sp, (s'.forest.vm 1).hart.registers tp)) =
        some (stack, 0) →
      ∃ s', sandboxRuns.step (cloningSandbox flags) ecallRun s' ∧
        (s'.forest.vm 1).hart.registers sp = stack ∧ (s'.forest.vm 1).hart.registers tp = 0 := by
    intro flags stack hrun
    obtain ⟨s', hnext, hregisters⟩ := Option.map_eq_some_iff.mp hrun
    obtain ⟨hsp, htp⟩ := Prod.mk.inj hregisters
    exact ⟨s', ⟨Nat.one_pos, List.not_mem_nil, Result.toOption_eq_some.mp hnext⟩, hsp, htp⟩
  constructor
  · intro h
    obtain ⟨s', hstep, hsp, -⟩ := hchild 0x700 0x2000 (by decide +kernel)
    have hclaimed : (s'.forest.vm 1).hart.registers sp = 0x3000 := (h _ _ _ hstep rfl rfl).childSp
    rw [hsp] at hclaimed
    revert hclaimed
    decide
  · obtain ⟨s', hstep, hsp, htp⟩ := hchild 0x7d0f00 0x3000 (by decide +kernel)
    exact ⟨s', hstep, by decide, rfl, hsp, htp⟩

end Hyrule
