import Hyrule.Cpu.Encoding

/-!
# Translated instructions mean what the instruction set says

A legal word that touches only the registers and the pc is translated into a
block that leaves the registers and the pc as the instruction set says
(`translated_refines`).  The hart may be at any address of the host, and the
registers of the host that a block does not set may hold anything.
-/

namespace Hyrule

open Lib Lib.X86 Riscv

/-! ## The ends of the templates -/

section Ends

variable {hart : Hart} {rd : RegisterIndex} {value target : Word}

theorem write_zero (h : hart.registers 0 = 0) : (write hart rd value).registers 0 = 0 := by
  unfold write
  split
  next => exact h
  next hrd => exact (Function.update_of_ne (Ne.symm hrd) ..).trans h

theorem write_of_ne {r : RegisterIndex} (h : rd ≠ r) :
    (write hart rd value).registers r = hart.registers r := by
  unfold write
  split
  next => rfl
  next => exact Function.update_of_ne (Ne.symm h) ..

theorem setRegister_zero_zero (h : hart.registers 0 = 0) : hart.setRegister 0 0 = hart := by
  rw [Hart.setRegister, ← h, Function.update_eq_self]

/-- A write of any register and a reset of `x0` is a write that `x0` ignores. -/
theorem setRegister_reset (h : hart.registers 0 = 0) :
    (hart.setRegister rd value).setRegister 0 0 = write hart rd value := by
  unfold write
  split
  next hrd =>
    subst hrd
    rw [Hart.setRegister, Hart.setRegister, Function.update_idem]
    exact setRegister_zero_zero h
  next hrd => exact setRegister_zero_zero ((Function.update_of_ne (Ne.symm hrd) ..).trans h)

/-- A write of zero to any register leaves `x0`. -/
theorem setRegister_zero_eq_write (h : hart.registers 0 = 0) :
    hart.setRegister rd 0 = write hart rd 0 := by
  unfold write
  split
  next hrd =>
    subst hrd
    exact setRegister_zero_zero h
  next => rfl

theorem proceed_setRegister (h : hart.registers 0 = 0) :
    (hart.setRegister rd value).proceed = { write hart rd value with pc := hart.pc + 4 } := by
  rw [Hart.proceed, setRegister_reset h]
  rfl

theorem jumped_eq (h : hart.registers 0 = 0) :
    hart.jumped rd value target = { write hart rd value with pc := target } := by
  rw [← setRegister_reset h]
  rfl

end Ends

/-! ## The blocks -/

section Refines

variable {ω : Type} {base : Quad} {callbacks : Callbacks ω} {s : X86.State (Machine ω)}
  {i : Instruction} {hart' : Hart}

/-- The block of an instruction leaves the hart as the instruction does, and nothing
else changes. -/
def Refines (base : Quad) (callbacks : Callbacks ω) (b : TranslatedBlock)
    (s : X86.State (Machine ω)) (hart' : Hart) : Prop :=
  ∃ m, RunsTo base callbacks b.params b.template.code s m ∧ m.hart = hart' ∧
    m.world = s.mem.world

/-- The amount of a shift by a register. -/
theorem and_1f_toNat (v : Word) : (v &&& 0x1f).toNat % 32 = v.toNat % 32 := by
  rw [BitVec.toNat_and, show (0x1f : Word).toNat = 2 ^ 5 - 1 from rfl,
    Nat.and_two_pow_sub_one_eq_mod, Nat.mod_mod]

/-- The jump of a branch skips the target exactly if the branch is not taken. -/
theorem branch_pc {skip taken : Bool} (pc offset : Word) (h : skip = !taken) :
    (if skip then pc + 4 else pc + offset) = pc + if taken then offset else 4 := by
  subst h
  cases taken <;> rfl

theorem branch_refines {op : BranchOp} {rs1 rs2 : RegisterIndex} {offset : Word}
    (hs : Entered base s.regs) :
    Refines base callbacks
      ⟨op.template, [indexParam rs1, indexParam rs2, s.mem.hart.pc + offset]⟩ s
      { s.mem.hart with
        pc := s.mem.hart.pc +
          if op.taken (s.mem.hart.registers rs1) (s.mem.hart.registers rs2) then offset
          else 4 } := by
  let withPc (pc : Word) : Hart := { s.mem.hart with pc }
  have hcomm : decide (s.mem.hart.registers rs2 = s.mem.hart.registers rs1) =
      decide (s.mem.hart.registers rs1 = s.mem.hart.registers rs2) :=
    decide_eq_decide.mpr eq_comm
  cases op with
  | beq =>
    refine ⟨_, runs_branch_equal .ne hs, ?_, rfl⟩
    exact congrArg withPc (branch_pc _ _ (by rw [holds_ne, hcomm]; rfl))
  | bne =>
    refine ⟨_, runs_branch_equal .e hs, ?_, rfl⟩
    exact congrArg withPc (branch_pc _ _ (by rw [holds_e, hcomm]; exact (Bool.not_not _).symm))
  | blt =>
    refine ⟨_, runs_branch_order .ge hs, ?_, rfl⟩
    exact congrArg withPc (branch_pc _ _ (holds_ge _ _))
  | bge =>
    refine ⟨_, runs_branch_order .l hs, ?_, rfl⟩
    exact congrArg withPc (branch_pc _ _ (by rw [holds_l]; exact (Bool.not_not _).symm))
  | bltu =>
    refine ⟨_, runs_branch_order .ae hs, ?_, rfl⟩
    exact congrArg withPc (branch_pc _ _ (rfl))
  | bgeu =>
    refine ⟨_, runs_branch_order .b hs, ?_, rfl⟩
    exact congrArg withPc (branch_pc _ _ ((Bool.not_not _).symm))

theorem opImm_refines {op : ImmOp} {rd rs1 : RegisterIndex} {imm : Word}
    (hs : Entered base s.regs) (h0 : s.mem.hart.registers 0 = 0) :
    Refines base callbacks ⟨op.template, [imm, indexParam rs1, indexParam rd]⟩ s
      { write s.mem.hart rd (op.eval (s.mem.hart.registers rs1) imm) with
        pc := s.mem.hart.pc + 4 } := by
  rw [← proceed_setRegister h0]
  cases op with
  | addi => exact ⟨_, runs_immediate .add hs, rfl, rfl⟩
  | slti => exact ⟨_, runs_setImmediate .l hs, by simp [conditionWord, ImmOp.eval, ofBool], rfl⟩
  | sltiu => exact ⟨_, runs_setImmediate .b hs, rfl, rfl⟩
  | xori => exact ⟨_, runs_clearEcx_immediate .xor hs, rfl, rfl⟩
  | ori => exact ⟨_, runs_clearEcx_immediate .or hs, rfl, rfl⟩
  | andi => exact ⟨_, runs_clearEcx_immediate .and hs, rfl, rfl⟩

theorem shiftImm_refines {op : ShiftOp} {rd rs1 : RegisterIndex} {shamt : Fin 32}
    (hs : Entered base s.regs) (h0 : s.mem.hart.registers 0 = 0) :
    Refines base callbacks (op.immediateBlock rd rs1 shamt) s
      { write s.mem.hart rd (op.eval (s.mem.hart.registers rs1) shamt) with
        pc := s.mem.hart.pc + 4 } := by
  have hamount : (BitVec.ofNat 32 shamt &&& 0x1f).toNat % 32 = shamt := by
    rw [and_1f_toNat, BitVec.toNat_ofNat]
    omega
  have hamount' : (BitVec.ofNat 32 (0x400 + shamt) &&& 0x1f).toNat % 32 = shamt := by
    rw [and_1f_toNat, BitVec.toNat_ofNat]
    omega
  rw [← proceed_setRegister h0]
  cases op with
  | sll => exact ⟨_, runs_shiftImmediate .shl hs, by rw [withHart_hart, hamount]; rfl, rfl⟩
  | srl => exact ⟨_, runs_shiftImmediate .shr hs, by rw [withHart_hart, hamount]; rfl, rfl⟩
  | sra => exact ⟨_, runs_shiftImmediate .sar hs, by rw [withHart_hart, hamount']; rfl, rfl⟩

theorem opReg_refines {op : RegOp} {rd rs1 rs2 : RegisterIndex}
    (hs : Entered base s.regs) (h0 : s.mem.hart.registers 0 = 0) :
    Refines base callbacks ⟨op.template, [indexParam rs1, indexParam rs2, indexParam rd]⟩ s
      { write s.mem.hart rd (op.eval (s.mem.hart.registers rs1) (s.mem.hart.registers rs2)) with
        pc := s.mem.hart.pc + 4 } := by
  rw [← proceed_setRegister h0]
  cases op with
  | add => exact ⟨_, runs_arithmetic .add hs, by simp [Alu.eval, RegOp.eval, BitVec.add_comm], rfl⟩
  | sub => exact ⟨_, runs_sub hs, rfl, rfl⟩
  | slt => exact ⟨_, runs_set .l hs, by simp [conditionWord, RegOp.eval, ofBool], rfl⟩
  | sltu => exact ⟨_, runs_set .b hs, rfl, rfl⟩
  | xor => exact ⟨_, runs_arithmetic .xor hs, by simp [Alu.eval, RegOp.eval, BitVec.xor_comm], rfl⟩
  | or => exact ⟨_, runs_arithmetic .or hs, by simp [Alu.eval, RegOp.eval, BitVec.or_comm], rfl⟩
  | and => exact ⟨_, runs_arithmetic .and hs, by simp [Alu.eval, RegOp.eval, BitVec.and_comm], rfl⟩

theorem shift_refines {op : ShiftOp} {rd rs1 rs2 : RegisterIndex}
    (hs : Entered base s.regs) (h0 : s.mem.hart.registers 0 = 0) :
    Refines base callbacks ⟨op.template, [indexParam rs1, indexParam rs2, indexParam rd]⟩ s
      { write s.mem.hart rd (op.eval (s.mem.hart.registers rs1)
          ((s.mem.hart.registers rs2).toNat % 32)) with
        pc := s.mem.hart.pc + 4 } := by
  rw [← proceed_setRegister h0, ← and_1f_toNat]
  cases op with
  | sll => exact ⟨_, runs_shift .shl hs, rfl, rfl⟩
  | srl => exact ⟨_, runs_shift .shr hs, rfl, rfl⟩
  | sra => exact ⟨_, runs_shift .sar hs, rfl, rfl⟩

/-- The block of an instruction leaves the hart as the instruction does. -/
theorem block_refines (callbacks : Callbacks ω) {b : TranslatedBlock}
    (hb : i.block s.mem.hart.pc = some b)
    (hstep : i.step s.mem.hart = some hart') (hs : Entered base s.regs)
    (h0 : s.mem.hart.registers 0 = 0) : Refines base callbacks b s hart' := by
  cases i with
  | lui rd imm =>
    cases hb
    cases hstep
    refine ⟨_, runs_lui hs, ?_, rfl⟩
    rw [withHart_hart, proceed_setRegister h0, setWidth_shiftLeft_upper]
  | auipc rd imm =>
    cases hb
    cases hstep
    refine ⟨_, runs_auipc hs, ?_, rfl⟩
    rw [withHart_hart, proceed_setRegister h0, setWidth_shiftLeft_upper, BitVec.add_comm]
  | jal rd offset =>
    cases hb
    cases hstep
    exact ⟨_, runs_jal hs, jumped_eq h0, rfl⟩
  | jalr rd rs1 offset =>
    cases hb
    cases hstep
    exact ⟨_, runs_jalr hs, jumped_eq h0, rfl⟩
  | branch op rs1 rs2 offset =>
    cases hb
    cases hstep
    exact branch_refines hs
  | opImm op rd rs1 imm =>
    cases hb
    cases hstep
    exact opImm_refines hs h0
  | shiftImm op rd rs1 shamt =>
    cases hb
    cases hstep
    exact shiftImm_refines hs h0
  | opReg op rd rs1 rs2 =>
    cases hb
    cases hstep
    exact opReg_refines hs h0
  | shift op rd rs1 rs2 =>
    cases hb
    cases hstep
    exact shift_refines hs h0
  | load | store | mul | lr | sc | amo | fence | fenceI | ecall | ebreak => cases hstep

/-- An instruction that touches only the registers has a block. -/
theorem block_of_step {hart : Hart} (address : Word) (hstep : i.step hart = some hart') :
    ∃ b, i.block address = some b := by
  cases i with
  | load | store | mul | lr | sc | amo | fence | fenceI | ecall | ebreak => cases hstep
  | _ => exact ⟨_, rfl⟩

theorem step_zero {hart : Hart} (hstep : i.step hart = some hart')
    (h0 : hart.registers 0 = 0) : hart'.registers 0 = 0 := by
  cases i with
  | load | store | mul | lr | sc | amo | fence | fenceI | ecall | ebreak => cases hstep
  | branch op rs1 rs2 offset =>
    cases hstep
    exact h0
  | _ =>
    cases hstep
    exact write_zero h0

theorem step_of_ne_destination {hart : Hart} {r : RegisterIndex}
    (hstep : i.step hart = some hart') (hr : i.destination ≠ some r) :
    hart'.registers r = hart.registers r := by
  cases i with
  | load | store | mul | lr | sc | amo | fence | fenceI | ecall | ebreak => cases hstep
  | branch op rs1 rs2 offset =>
    cases hstep
    rfl
  | _ =>
    cases hstep
    exact write_of_ne fun h => hr (congrArg some h)

/-- For every legal word that touches only the registers and the pc, and every hart
with `x0 = 0` whose pc is at the word, the translated block runs to its end and
leaves the registers and the pc of the instruction set. -/
theorem translated_refines (callbacks : Callbacks ω) {w address : Word}
    (hdecode : decode w = some i) (hstep : i.step s.mem.hart = some hart')
    (hs : Entered base s.regs) (h0 : s.mem.hart.registers 0 = 0)
    (hpc : s.mem.hart.pc = address) :
    ∃ b s', translate address w = .ok b ∧ b.run base callbacks s = .ok (s', .run) ∧
      s'.mem.hart = hart' ∧ s'.mem.hart.registers 0 = 0 ∧
      (∀ r, i.destination ≠ some r → s'.mem.hart.registers r = s.mem.hart.registers r) ∧
      s'.mem.world = s.mem.world ∧ Entered base s'.regs := by
  subst hpc
  obtain ⟨b, hb⟩ := block_of_step s.mem.hart.pc hstep
  obtain ⟨m, ⟨s', hrun, rfl, hs'⟩, hhart, hworld⟩ :=
    block_refines callbacks hb hstep hs h0
  have htranslate : translate s.mem.hart.pc w = .ok b := by
    rw [translate_of_decode hdecode, hb]
    rfl
  refine ⟨b, s', htranslate, hrun, hhart, ?_, ?_, hworld, hs'⟩
  · rw [hhart]
    exact step_zero hstep h0
  · intro r hr
    rw [hhart]
    exact step_of_ne_destination hstep hr

end Refines

/-- A fresh hart at address 0 of the host that enters a block. -/
def freshEntry : X86.State (Machine Unit) where
  regs := fun
    | .r14 => offsetOfPc
    | _ => 0
  flags := none
  mem := ⟨.initial 0, (), []⟩

/-- The word `addi x1, x0, -1` leaves `-1` in `x1`. -/
theorem translated_refines_addi :
    ∃ b s', translate 0 0xfff00093 = .ok b ∧
      b.run 0 (fun _ _ m => .ok (.leaves, m)) freshEntry = .ok (s', .run) ∧
      s'.mem.hart.registers 1 = 0xffffffff ∧ s'.mem.hart.registers 2 = 0 ∧
      s'.mem.hart.pc = 4 := by
  have hentered : Entered 0 freshEntry.regs := ⟨rfl, rfl, rfl⟩
  obtain ⟨b, s', htranslate, hrun, hhart, -, hother, -, -⟩ :=
    translated_refines (w := 0xfff00093) (i := .opImm .addi 1 0 0xffffffff)
      (fun _ _ m => .ok (.leaves, m)) rfl rfl hentered rfl rfl
  exact ⟨b, s', htranslate, hrun, by rw [hhart]; rfl, hother 2 (by decide), by rw [hhart]; rfl⟩

end Hyrule
