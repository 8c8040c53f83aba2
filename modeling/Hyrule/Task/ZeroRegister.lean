import Hyrule.Cpu.ZeroCheck
import Hyrule.Task.Harts

/-!
# The zero register of every task

`x0` of every hart is zero whenever an instruction begins, in every run of the
sandbox from `application_sandbox_init` on, and an instruction that reads it as an
operand reads zero (`zero_register`).

A block keeps its own `x0` by the check of its code.  What is left is that no C
function writes `x0` of any hart: the system calls do not, and the slow path of the
atomic operations does, but an exception that it raises comes before that write.
-/

namespace Hyrule

open Lib Lib.Result

/-! ## The tasks -/

/-- `x0` of every hart is zero. -/
def Forest.ZeroHarts (s : Forest) : Prop := ∀ t, (s.vm t).hart.registers 0 = 0

theorem Hart.setRegister_zero (hart : Hart) {rd : RegisterIndex} (hrd : rd ≠ 0) (value : Word) :
    (hart.setRegister rd value).registers 0 = hart.registers 0 :=
  Function.update_of_ne hrd.symm _ _

/-- A call leaves `x0`. -/
theorem zero_keptByCalls : KeptByCalls fun hart => hart.registers 0 = 0 where
  initial := rfl
  setRegister value hrd h := (Hart.setRegister_zero _ hrd value).trans h
  jump _ h := h
  renumber h := h
  reset _ := rfl

theorem Forest.ZeroHarts.setVm {s : Forest} {t : TaskId} (h : s.ZeroHarts) {vm : Vm}
    (hvm : vm.hart.registers 0 = 0) : (s.setVm t vm).ZeroHarts :=
  Forest.AllHarts.setVm (P := fun hart => hart.registers 0 = 0) h hvm

/-! ## The called functions -/

section Callbacks

open Lib.X86 (Outcome Reg Quad)

variable {t : TaskId} {host : HostSide} {regs : Reg → Quad} {m m' : Machine Sandbox}
  {outcome : Outcome}

/-- The world of a machine, whose `x0` are all zero. -/
def Sandbox.ZeroHarts (s : Sandbox) : Prop := s.forest.ZeroHarts

theorem readAmoOperands_readsZero (hzero : m.hart.registers 0 = 0)
    (h : m.ReadsZero Sandbox.ZeroHarts) (funct5 : Nat) (rs1 rs2 : RegisterIndex) :
    (m.readAmoOperands funct5 rs1 rs2).ReadsZero Sandbox.ZeroHarts := by
  unfold Machine.readAmoOperands
  split
  next => exact h.readOperand hzero rs1
  next => exact (h.readOperand hzero rs1).readOperand hzero rs2

theorem readAmoOperands_hart {funct5 : Nat} {rs1 rs2 : RegisterIndex} :
    (m.readAmoOperands funct5 rs1 rs2).hart = m.hart := by
  unfold Machine.readAmoOperands
  split
  next => rfl
  next => rfl

theorem amoRaised_zero {funct5 : Nat} {rd : RegisterIndex} {hart : Hart}
    (h : hart.registers 0 = 0) : (amoRaised host funct5 rd hart).registers 0 = 0 := by
  have hraised : (if funct5 = 0x3 then hart.setRegister rd 0 else hart).registers 0 = 0 := by
    split
    next =>
      by_cases hrd : rd = 0
      · rw [hrd, Hart.setRegister_self]
      · rw [Hart.setRegister_zero _ hrd, h]
    next => exact h
  exact hraised

/-- The slow path reads its operands before it writes `rd`, and leaves the block
only before it has written something else than zero. -/
theorem amoCallback_zero (hzero : m.hart.registers 0 = 0) (h : m.ReadsZero Sandbox.ZeroHarts)
    (hcall : amoCallback t host regs m = .ok (outcome, m')) :
    m'.ReadsZero Sandbox.ZeroHarts ∧ (outcome = .leaves → m'.hart.registers 0 = 0) := by
  obtain ⟨rs1, -, hcall⟩ := bind_eq_ok.mp hcall
  obtain ⟨rs2, -, hcall⟩ := bind_eq_ok.mp hcall
  obtain ⟨rd, -, hcall⟩ := bind_eq_ok.mp hcall
  obtain ⟨owner, -, hcall⟩ := bind_eq_ok.mp hcall
  have hreads := readAmoOperands_readsZero hzero h ((regs .r8).setWidth 32).toNat rs1 rs2
  simp only at hcall
  split at hcall
  next s _ =>
    cases hcall
    exact ⟨⟨hreads.world, hreads.operands⟩, fun hleaves => nomatch hleaves⟩
  next =>
    cases hcall
    refine ⟨hreads.withHart _, fun _ => amoRaised_zero ?_⟩
    rw [readAmoOperands_hart]
    exact hzero
  next => cases hcall

theorem ecallCallback_zero (hzero : m.hart.registers 0 = 0) (h : m.ReadsZero Sandbox.ZeroHarts)
    (hcall : ecallCallback t host m = .ok (outcome, m')) :
    m'.ReadsZero Sandbox.ZeroHarts ∧ m'.hart.registers 0 = 0 := by
  obtain ⟨⟨value, world⟩, hsyscall, hcall⟩ := bind_eq_ok.mp hcall
  have hsynced : (m.world.setHart t m.hart).forest.ZeroHarts :=
    Forest.ZeroHarts.setVm (s := m.world.forest) h.world hzero
  have hworld : world.forest.ZeroHarts :=
    (doSyscall_keepsHarts zero_keptByCalls hsynced hsyscall).1
  cases value with
  | some value =>
    cases hcall
    exact ⟨⟨hworld, h.operands⟩, (Hart.setRegister_zero _ (by decide) _).trans (hworld t)⟩
  | none =>
    cases hcall
    exact ⟨⟨hworld, h.operands⟩, hworld t⟩

theorem sandboxCallbacks_keepsZero (t : TaskId) (host : HostSide) :
    KeepsZero Sandbox.ZeroHarts (sandboxCallbacks t host) := by
  intro f regs m outcome m' hzero hreads hcall
  have hread : ∀ size, mmuRead t host regs m size = .ok (outcome, m') →
      m'.ReadsZero Sandbox.ZeroHarts ∧ m'.hart.registers 0 = 0 := by
    intro size hcall
    obtain ⟨value, -, hcall⟩ := bind_eq_ok.mp hcall
    cases hcall
    exact ⟨hreads, hzero⟩
  have hwrite : ∀ size, mmuWrite t host regs m size = .ok (outcome, m') →
      m'.ReadsZero Sandbox.ZeroHarts ∧ m'.hart.registers 0 = 0 := by
    intro size hcall
    obtain ⟨world, hwrite, hcall⟩ := bind_eq_ok.mp hcall
    obtain ⟨owner, -, hwrite⟩ := bind_eq_ok.mp hwrite
    obtain ⟨heap, -, hwrite⟩ := bind_eq_ok.mp hwrite
    cases hwrite
    cases hcall
    exact ⟨⟨hreads.world, hreads.operands⟩, hzero⟩
  cases f with
  | mmuRead8 => exact (hread 1 hcall).imp_right fun h _ => h
  | mmuRead16 => exact (hread 2 hcall).imp_right fun h _ => h
  | mmuRead32 => exact (hread 4 hcall).imp_right fun h _ => h
  | mmuWrite8 => exact (hwrite 1 hcall).imp_right fun h _ => h
  | mmuWrite16 => exact (hwrite 2 hcall).imp_right fun h _ => h
  | mmuWrite32 => exact (hwrite 4 hcall).imp_right fun h _ => h
  | amoInstructionSlowpath =>
    obtain ⟨hreads', hleaves⟩ := amoCallback_zero hzero hreads hcall
    refine ⟨hreads', ?_⟩
    rintro (hne | houtcome)
    · exact absurd rfl hne
    · exact hleaves houtcome
  | flushTranslationCache =>
    cases hcall
    exact ⟨hreads, fun _ => hzero⟩
  | ecallCallback =>
    exact (ecallCallback_zero hzero hreads hcall).imp_right fun h _ => h

end Callbacks

/-! ## Runs -/

/-- A block begins with `x0` zero. -/
theorem InstructionRun.entry_describes (run : InstructionRun) {s : Sandbox} (h : s.ZeroHarts) :
    ZeroCheck.start.Describes Sandbox.ZeroHarts run.base (run.entry s, .run) where
  entered := ⟨rfl, rfl, rfl⟩
  reads := ⟨h, fun _ hmem => absurd hmem List.not_mem_nil⟩
  clean _ := h run.task
  seeks _ hl := nomatch hl

/-- An instruction keeps every `x0`. -/
theorem InstructionRun.next_zeroHarts {run : InstructionRun} {s s' : Sandbox} (h : s.ZeroHarts)
    (hnext : run.next s = .ok s') : s'.ZeroHarts := by
  obtain ⟨b, -, hnext⟩ := X86.bind_eq_ok.mp hnext
  obtain ⟨⟨x, c⟩, hexec, hnext⟩ := X86.bind_eq_ok.mp hnext
  cases hnext
  obtain ⟨hreads, hzero⟩ := TranslatedBlock.run_zero
    (sandboxCallbacks_keepsZero run.task run.host) (run.entry_describes h) hexec
  exact Forest.ZeroHarts.setVm (s := x.mem.world.forest) hreads.world hzero

theorem reachable_zeroHarts {s : Sandbox} (h : sandboxRuns.Reachable s) : s.ZeroHarts := by
  refine h.invariant (P := Sandbox.ZeroHarts) ?_ ?_
  · rintro s ⟨boot, alloc, forest, hinit, rfl⟩
    exact applicationSandboxInit_allHarts zero_keptByCalls hinit
  · rintro s run s' hs ⟨-, -, hnext⟩
    exact run.next_zeroHarts hs hnext

/-- In every run, `x0` of every hart is zero whenever an instruction begins, and up to
every place of its block an instruction has read `x0` only as zero. -/
theorem zero_register {s : Sandbox} (h : sandboxRuns.Reachable s) :
    (∀ t, (s.forest.vm t).hart.registers 0 = 0) ∧
      ∀ (run : InstructionRun) (b : TranslatedBlock) (code : HostCode),
        translate run.address run.instruction = .ok b → code <+: b.template.code →
        ∀ x c, run.execute s b code = .ok (x, c) →
          ∀ value, (0, value) ∈ x.mem.operands → value = 0 := by
  have hs := reachable_zeroHarts h
  refine ⟨hs, fun run b code _ hcode x c hexec => ?_⟩
  exact (prefix_readsZero (sandboxCallbacks_keepsZero run.task run.host) hcode
    (run.entry_describes hs) hexec).operands

/-- A host that answers nothing. -/
def quietHost : HostSide where
  alloc := .lowest 8
  copies _ := .returns 0
  answer := .returns 0
  closed := .returns 0
  path := slashString
  execve := ⟨slashString, [], []⟩
  hostFiles _ := none
  added _ := 0
  stores := []
  value := 0
  clobbered _ := 0
  mtvec := 0

/-- The first task runs an instruction. -/
def firstTaskRuns (instruction : Word) : InstructionRun :=
  ⟨0, 0, instruction, 0x1000, fun _ => 0, quietHost⟩

/-- An `amoadd.w x0, x0, (sp)` leaves the number of arguments in `x0` until it is reset,
and an `add x0, x0, x0` behind it reads zero. -/
theorem zero_register_amoadd :
    ∃ s x c, sandboxRuns.Reachable s ∧
      (firstTaskRuns 0x33).execute s ⟨.add, [0, 0, 0]⟩ Template.add.code = .ok (x, c) ∧
      ∃ value, (0, value) ∈ x.mem.operands ∧ value = 0 := by
  have hrun : (do
      let forest ← (applicationSandboxInit { bareBoot slashX with argv := [slashX] }
        (.lowest 8)).toOption
      let s ← ((firstTaskRuns 0x0001202f).next ⟨forest, .initial, []⟩).toOption
      let x ← ((firstTaskRuns 0x33).execute s ⟨.add, [0, 0, 0]⟩ Template.add.code).toOption
      return (forest.nrTasks, x.1.mem.operands.map Prod.fst)) = some (1, [0, 0]) := by
    decide +kernel
  simp only [Option.bind_eq_bind, Option.bind_eq_some_iff, Option.pure_def, Option.some.injEq,
    Prod.mk.injEq, toOption_eq_some] at hrun
  obtain ⟨forest, hinit, s, hnext, ⟨x, c⟩, hexec, htasks, hoperands⟩ := hrun
  have hstart : sandboxRuns.Reachable ⟨forest, .initial, []⟩ := .init ⟨_, _, forest, hinit, rfl⟩
  have htask : (firstTaskRuns 0x0001202f).task < forest.nrTasks := by
    rw [htasks]
    exact Nat.one_pos
  have hreach : sandboxRuns.Reachable s := hstart.step ⟨htask, List.not_mem_nil, hnext⟩
  have hmem : (0 : RegisterIndex) ∈ x.mem.operands.map Prod.fst := by simp [hoperands]
  obtain ⟨⟨i, value⟩, hvalue, rfl⟩ := List.mem_map.mp hmem
  have hzero := (zero_register hreach).2 (firstTaskRuns 0x33) ⟨.add, [0, 0, 0]⟩ Template.add.code
    rfl (List.prefix_refl _) x c hexec value hvalue
  exact ⟨s, x, c, hreach, hexec, value, hvalue, hzero⟩

end Hyrule
