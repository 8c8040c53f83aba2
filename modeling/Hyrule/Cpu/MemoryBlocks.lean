import Hyrule.Cpu.Refinement

/-!
# Blocks that access guest memory

The templates of the loads, the stores and the atomic operations, up to the C
function that each of them calls.  A load or store passes the sum of a register and
the immediate in `esi`.  A load extends what is returned in `rax`, and a store masks
what it passes in `edx`.  An atomic operation passes the indices of its registers.

What the functions do is a parameter here.
-/

namespace Hyrule

open Lib Lib.X86 Riscv

section MemoryBlocks

variable {ω : Type} {base : Quad} {callbacks : Callbacks ω} {s : X86.State (Machine ω)}
  {params : List Word} {f : Callback} {regs : Reg → Quad} {m : Machine ω}
  {rd rs1 rs2 : RegisterIndex} {offset : Word}

/-! ## Calls -/

/-- The registers that a block keeps across a call. -/
def keptByCall (saved regs : Reg → Quad) : Reg → Quad :=
  fun r => if r ∈ [.r15, .r14, .r13, .r12] then saved r else regs r

/-- A call that returns. -/
theorem exec_callC (h : callbacks f s.regs s.mem = .ok (.returns regs, m)) :
    exec (hartBus base callbacks) params (callC f) (s, .run) =
      .ok (⟨keptByCall s.regs regs, none, m⟩, .run) := by
  simp only [callC, exec_run, step, hartBus, h, lift_ok, ok_bind]
  rfl

/-- A call that leaves the block. -/
theorem exec_callC_leaves (h : callbacks f s.regs s.mem = .ok (.leaves, m)) (code : HostCode) :
    exec (hartBus base callbacks) params (callC f ++ code) (s, .run) =
      .ok (s.withMem m, .left) := by
  rw [exec_append]
  simp only [callC, exec_run, step, hartBus, h, lift_ok, ok_bind]
  exact exec_left code

theorem Entered.keptByCall (h : Entered base s.regs) (regs : Reg → Quad) :
    Entered base (keptByCall s.regs regs) :=
  ⟨h.r15, h.r14, h.r12⟩

/-- Code that changes the value of one register and nothing else. -/
def Changes (base : Quad) (callbacks : Callbacks ω) (params : List Word) (code : HostCode)
    (reg : Reg) (change : Quad → Word) : Prop :=
  ∀ s : X86.State (Machine ω), ∃ s',
    exec (hartBus base callbacks) params code (s, .run) = .ok (s', .run) ∧ s'.mem = s.mem ∧
      (∀ r, r ≠ reg → s'.regs r = s.regs r) ∧ s'.long reg = change (s.regs reg)

/-- The code behind such a change. -/
theorem RunsTo.change {code code' : HostCode} {reg : Reg} {change : Quad → Word}
    (hchange : Changes base callbacks params code reg change)
    (h : ∀ s', s'.mem = s.mem → (∀ r, r ≠ reg → s'.regs r = s.regs r) →
      s'.long reg = change (s.regs reg) → RunsTo base callbacks params code' s' m) :
    RunsTo base callbacks params (code ++ code') s m := by
  obtain ⟨s', hexec, hmem, hregs, hlong⟩ := hchange s
  exact .seq hexec (h s' hmem hregs hlong)

theorem Entered.of_ne {reg : Reg} {regs' : Reg → Quad} (hs : Entered base regs)
    (hreg : reg ∉ [.r12, .r14, .r15]) (h : ∀ r, r ≠ reg → regs' r = regs r) :
    Entered base regs' := by
  refine hs.of_eq fun r hr => h r ?_
  rintro rfl
  exact hreg hr

/-! ## The templates -/

theorem runs_loadCode {extend : HostCode} {change : Quad → Word}
    (hextend : Changes base callbacks [offset, indexParam rs1, indexParam rd] extend .rax change)
    (hread : ∀ args, (args .rsi).setWidth 32 = s.mem.hart.registers rs1 + offset →
      callbacks f args (s.mem.readOperand rs1) = .ok (.returns regs, s.mem.readOperand rs1))
    (hs : Entered base s.regs) :
    RunsTo base callbacks [offset, indexParam rs1, indexParam rd] (loadCode f extend) s
      ((s.mem.readOperand rs1).withHart
        (s.mem.hart.setRegister rd (change (regs .rax))).proceed) := by
  simp only [loadCode, List.append_assoc]
  refine .seq (exec_readRegister (i := rs1) rfl hs.r15 (by decide)) ?_
  refine .seq rfl ?_
  refine .seq (exec_callC (hread _ ?_)) ?_
  · simp [Alu.eval]
  refine .seq (exec_registerAddress (i := rd) rfl ?_ (by decide)) ?_
  · simp [keptByCall, hs.r15]
  refine .change hextend fun s₁ hmem hregs hlong => ?_
  have hs₁ : Entered base s₁.regs := by
    refine .of_ne ?_ (by decide) hregs
    constructor <;> simp [keptByCall, hs.r15, hs.r14, hs.r12]
  have hrdx : s₁.regs .rdx = registerPointer base rd := by
    rw [hregs _ (by decide)]
    simp
  simp only [dropFlags_regs, setQuad_regs, reduceCtorEq, if_false, dropFlags_mem,
    setQuad_mem] at hlong hmem
  refine .seq (by simp only [exec_run, step, hrdx, store_register, lift_ok, ok_bind]; rfl)
    (.proceed ?_ ?_)
  · exact ⟨hs₁.r15, hs₁.r14, hs₁.r12⟩
  · simp [hmem, hlong, keptByCall]

theorem runs_storeCode {mask : HostCode} {change : Quad → Word}
    (hmask : Changes base callbacks [offset, indexParam rs1, indexParam rs2] mask .rdx change)
    (hwrite : ∀ args, (args .rsi).setWidth 32 = s.mem.hart.registers rs1 + offset →
      (args .rdx).setWidth 32 = change ((s.mem.hart.registers rs2).setWidth 64) →
      callbacks f args ((s.mem.readOperand rs1).readOperand rs2) = .ok (.returns regs, m))
    (hs : Entered base s.regs) :
    RunsTo base callbacks [offset, indexParam rs1, indexParam rs2] (storeCode f mask) s
      (m.withHart { m.hart with pc := m.hart.pc + 4 }) := by
  simp only [storeCode, List.append_assoc]
  refine .seq (exec_readRegister (i := rs1) rfl hs.r15 (by decide)) ?_
  refine .seq rfl ?_
  refine .seq (exec_readRegister (i := rs2) rfl (by simp [hs.r15]) (by decide)) ?_
  refine .change hmask fun s₁ hmem hregs hlong => ?_
  have hs₁ : Entered base s₁.regs := by
    refine .of_ne ?_ (by decide) hregs
    constructor <;> simp [hs.r15, hs.r14, hs.r12]
  have hmem' : s₁.mem = (s.mem.readOperand rs1).readOperand rs2 := by simpa using hmem
  have hcall : callbacks f (s₁.setQuad .rdi (s₁.regs .r12)).regs s₁.mem =
      .ok (.returns regs, m) := by
    rw [hmem']
    refine hwrite _ ?_ ?_
    · simp [hregs, Alu.eval]
    · simpa [State.long] using hlong
  refine .seq rfl (.seq (exec_callC hcall) ⟨_, exec_proceedToNextInstruction ?_, rfl, ?_⟩)
  · simp [keptByCall, hs₁.r14]
  · constructor <;> simp [keptByCall, hs₁.r15, hs₁.r14, hs₁.r12]

/-- The arguments of the slow path of the atomic operations. -/
def AmoArguments (rs1 rs2 rd : RegisterIndex) (funct5 : Word) (args : Reg → Quad) : Prop :=
  args .rsi = (indexParam rs1).setWidth 64 ∧ args .rdx = (indexParam rs2).setWidth 64 ∧
    args .rcx = (indexParam rd).setWidth 64 ∧ args .r8 = funct5.setWidth 64

variable {funct5 : Word}

/-- The moves in front of the call. -/
def amoArguments : HostCode :=
  [.movq .r12 .rdi, .movlParam 0 .rsi, .movlParam 1 .rdx, .movlParam 2 .rcx, .movlParam 3 .r8]

theorem amoCode_eq :
    amoCode = amoArguments ++ (callC .amoInstructionSlowpath ++
      (resetZeroRegister ++ proceedToNextInstruction)) := by
  simp only [amoCode, amoArguments, List.append_assoc]

theorem exec_amoArguments (hs : Entered base s.regs) :
    ∃ s', exec (hartBus base callbacks) [indexParam rs1, indexParam rs2, indexParam rd, funct5]
        amoArguments (s, .run) = .ok (s', .run) ∧ s'.mem = s.mem ∧
      AmoArguments rs1 rs2 rd funct5 s'.regs ∧ Entered base s'.regs := by
  refine ⟨_, rfl, rfl, by simp [AmoArguments], ?_⟩
  constructor <;> simp [hs.r15, hs.r14, hs.r12]

theorem runs_amoCode
    (hamo : ∀ args, AmoArguments rs1 rs2 rd funct5 args →
      callbacks .amoInstructionSlowpath args s.mem = .ok (.returns regs, m))
    (hs : Entered base s.regs) :
    RunsTo base callbacks [indexParam rs1, indexParam rs2, indexParam rd, funct5] amoCode s
      (m.withHart m.hart.proceed) := by
  obtain ⟨s₁, hexec, hmem, hargs, hs₁⟩ := exec_amoArguments hs
  rw [amoCode_eq]
  refine .seq hexec (.seq (exec_callC ?_) (.proceed (hs₁.keptByCall regs) rfl))
  rw [hmem]
  exact hamo _ hargs

/-- The slow path raises an exception. -/
theorem amoCode_leaves
    (hamo : ∀ args, AmoArguments rs1 rs2 rd funct5 args →
      callbacks .amoInstructionSlowpath args s.mem = .ok (.leaves, m))
    (hs : Entered base s.regs) :
    ∃ s', exec (hartBus base callbacks) [indexParam rs1, indexParam rs2, indexParam rd, funct5]
      amoCode (s, .run) = .ok (s', .left) ∧ s'.mem = m := by
  obtain ⟨s₁, hexec, hmem, hargs, -⟩ := exec_amoArguments hs
  rw [amoCode_eq, exec_append, hexec, ok_bind]
  refine ⟨_, exec_callC_leaves ?_ _, rfl⟩
  rw [hmem]
  exact hamo _ hargs

/-- A block that runs to its end or leaves has called the slow path. -/
theorem amoCode_called {sc : X86.State (Machine ω) × Control} (hs : Entered base s.regs)
    (h : exec (hartBus base callbacks) [indexParam rs1, indexParam rs2, indexParam rd, funct5]
      amoCode (s, .run) = .ok sc) :
    ∃ args called, AmoArguments rs1 rs2 rd funct5 args ∧
      callbacks .amoInstructionSlowpath args s.mem = .ok called := by
  have hmoves : ∃ s', exec (hartBus base callbacks)
        [indexParam rs1, indexParam rs2, indexParam rd, funct5] amoArguments (s, .run) =
          .ok (s', .run) ∧ s'.mem = s.mem ∧
      AmoArguments rs1 rs2 rd funct5 s'.regs ∧ Entered base s'.regs := exec_amoArguments hs
  obtain ⟨s₁, hexec, hmem, hargs, -⟩ := hmoves
  rw [amoCode_eq, exec_append, hexec, ok_bind, exec_append] at h
  obtain ⟨sc₁, hcall, -⟩ := bind_eq_ok.mp h
  obtain ⟨sc₂, hstep, -⟩ := bind_eq_ok.mp hcall
  obtain ⟨called, hcalled, -⟩ := bind_eq_ok.mp hstep
  rw [← hmem]
  exact ⟨_, called, hargs, lift_eq_ok hcalled⟩

end MemoryBlocks

end Hyrule
