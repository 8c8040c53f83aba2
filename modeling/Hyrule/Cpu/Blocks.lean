import Hyrule.Cpu.Templates

/-!
# Running translated blocks

A block runs on the machine of the host, with the guest registers and the guest
pc at fixed offsets of `struct hart`.  What it reaches otherwise is behind the C
functions it calls, which are a parameter here.

The lemmas run the sequences that the templates are made of, and then each kind
of template: what is in the guest registers behind the block, as a function of
the parameters and of the registers before it.
-/

namespace Hyrule

open Lib Lib.X86

/-! ## The machine -/

/-- A hart that runs a block, and what the C functions reach besides. -/
structure Machine (ω : Type) where
  hart : Hart
  world : ω
  /-- The guest registers that were read as operands, and what was read, the last
  one first. -/
  operands : List (RegisterIndex × Word)

/-- The fields of `struct hart` that a block accesses. -/
inductive HartField where
  | register (i : RegisterIndex)
  | pc

/-- The offset of `pc` in `struct hart`, behind the registers. -/
def offsetOfPc : Quad := 128

/-- The field at an offset of `struct hart`. -/
def hartField (offset : Quad) : Option HartField :=
  if offset.toNat % 4 = 0 then
    if h : offset.toNat / 4 < 32 then some (.register ⟨offset.toNat / 4, h⟩)
    else if offset = offsetOfPc then some .pc
    else none
  else none

variable {ω : Type}

/-- A register is read as an operand. -/
def Machine.readOperand (m : Machine ω) (i : RegisterIndex) : Machine ω :=
  { m with operands := (i, m.hart.registers i) :: m.operands }

/-- The machine with another hart. -/
def Machine.withHart (m : Machine ω) (hart : Hart) : Machine ω := { m with hart }

/-- What the C functions do on a machine, given the registers of the host. -/
abbrev Callbacks (ω : Type) := Callback → (Reg → Quad) → Machine ω → Result (Outcome × Machine ω)

/-- The memory that a block sees of a hart at an address. -/
def hartBus (base : Quad) (callbacks : Callbacks ω) : Bus Fault (Machine ω) Callback where
  load addr m :=
    match hartField (addr - base) with
    | some (.register i) => .ok (m.hart.registers i, m.readOperand i)
    | some .pc => .ok (m.hart.pc, m)
    | none => .error .outOfBounds
  store addr value m :=
    match hartField (addr - base) with
    | some (.register i) => .ok (m.withHart (m.hart.setRegister i value))
    | some .pc => .ok (m.withHart { m.hart with pc := value })
    | none => .error .outOfBounds
  call := callbacks

/-- `r15`, `r14` and `r12` are as `vmresume` sets them for a hart at an address. -/
structure Entered (base : Quad) (regs : Reg → Quad) : Prop where
  r15 : regs .r15 = base
  r14 : regs .r14 = base + offsetOfPc
  r12 : regs .r12 = base

/-- The other registers may change. -/
theorem Entered.of_eq {base : Quad} {regs regs' : Reg → Quad} (h : Entered base regs)
    (heq : ∀ r ∈ [Reg.r12, .r14, .r15], regs' r = regs r) : Entered base regs' where
  r15 := (heq _ (by decide)).trans h.r15
  r14 := (heq _ (by decide)).trans h.r14
  r12 := (heq _ (by decide)).trans h.r12

/-- The parameter that names a register. -/
def indexParam (i : RegisterIndex) : Word := BitVec.ofNat 32 i

/-- The address of a register. -/
def registerPointer (base : Quad) (i : RegisterIndex) : Quad :=
  (indexParam i <<< 2).setWidth 64 + base

/-- A block, run on a machine. -/
def TranslatedBlock.run (b : TranslatedBlock) (base : Quad) (callbacks : Callbacks ω)
    (s : X86.State (Machine ω)) : Except (Trap Fault) (X86.State (Machine ω) × Control) :=
  exec (hartBus base callbacks) b.params b.template.code (s, .run)

/-! ## Fields of the hart -/

theorem hartField_register (i : RegisterIndex) :
    hartField ((indexParam i <<< 2).setWidth 64) = some (.register i) := by
  have hi := i.isLt
  have hval : ((indexParam i <<< 2).setWidth 64).toNat = 4 * i.val := by
    simp only [indexParam, BitVec.toNat_setWidth, BitVec.toNat_shiftLeft, BitVec.toNat_ofNat,
      Nat.shiftLeft_eq]
    omega
  have hdiv : 4 * i.val / 4 = i.val := by omega
  simp [hartField, hval, hdiv, hi]

theorem hartField_zero : hartField 0 = some (.register 0) := rfl

theorem hartField_pc : hartField offsetOfPc = some .pc := rfl

section Bus

variable {base : Quad} {callbacks : Callbacks ω} {m : Machine ω}

@[simp] theorem load_register (i : RegisterIndex) :
    (hartBus base callbacks).load (registerPointer base i) m =
      .ok (m.hart.registers i, m.readOperand i) := by
  have hsub : registerPointer base i - base = (indexParam i <<< 2).setWidth 64 :=
    BitVec.add_sub_cancel ..
  simp [hartBus, hsub, hartField_register]

@[simp] theorem store_register (i : RegisterIndex) (value : Long) :
    (hartBus base callbacks).store (registerPointer base i) value m =
      .ok (m.withHart (m.hart.setRegister i value)) := by
  have hsub : registerPointer base i - base = (indexParam i <<< 2).setWidth 64 :=
    BitVec.add_sub_cancel ..
  simp [hartBus, hsub, hartField_register]

@[simp] theorem store_zero (value : Long) :
    (hartBus base callbacks).store base value m =
      .ok (m.withHart (m.hart.setRegister 0 value)) := by
  have hsub : base - base = 0 := by grind
  simp only [hartBus, hsub, hartField_zero]

@[simp] theorem load_pc :
    (hartBus base callbacks).load (base + offsetOfPc) m = .ok (m.hart.pc, m) := by
  have hsub : base + offsetOfPc - base = offsetOfPc := by grind
  simp [hartBus, hsub, hartField_pc]

@[simp] theorem store_pc (value : Long) :
    (hartBus base callbacks).store (base + offsetOfPc) value m =
      .ok (m.withHart { m.hart with pc := value }) := by
  have hsub : base + offsetOfPc - base = offsetOfPc := by grind
  simp [hartBus, hsub, hartField_pc]

end Bus

@[simp] theorem readOperand_hart (m : Machine ω) (i : RegisterIndex) :
    (m.readOperand i).hart = m.hart := rfl

@[simp] theorem withHart_hart (m : Machine ω) (hart : Hart) : (m.withHart hart).hart = hart := rfl

@[simp] theorem withHart_withHart (m : Machine ω) (hart hart' : Hart) :
    (m.withHart hart).withHart hart' = m.withHart hart' := rfl

/-! ## The sequences of the templates -/

section Sequences

variable {base : Quad} {callbacks : Callbacks ω} {params : List Word}
  {s : X86.State (Machine ω)} {i : RegisterIndex} {p : Nat} {addr dst src : Reg}

theorem exec_registerAddress (hparam : params[p]? = some (indexParam i))
    (hbase : s.regs .r15 = base) (haddr : addr ≠ .r15) :
    exec (hartBus base callbacks) params (registerAddress p addr) (s, .run) =
      .ok ((s.setQuad addr (registerPointer base i)).dropFlags, .run) := by
  simp [registerAddress, step, param, hparam, hbase, haddr.symm, Shift.eval, State.setLong,
    State.setQuad, State.dropFlags, State.long, registerPointer]

theorem exec_readRegister (hparam : params[p]? = some (indexParam i))
    (hbase : s.regs .r15 = base) (haddr : addr ≠ .r15) :
    exec (hartBus base callbacks) params (readRegister p addr dst) (s, .run) =
      .ok (((s.setQuad addr (registerPointer base i)).dropFlags.withMem
        (s.mem.readOperand i)).setLong dst (s.mem.hart.registers i), .run) := by
  simp [readRegister, exec_append, exec_registerAddress hparam hbase haddr, step]

theorem exec_writeRegister (hparam : params[p]? = some (indexParam i))
    (hbase : s.regs .r15 = base) (haddr : addr ≠ .r15) (hsrc : src ≠ addr) :
    exec (hartBus base callbacks) params (writeRegister p addr src) (s, .run) =
      .ok ((s.setQuad addr (registerPointer base i)).dropFlags.withMem
        (s.mem.withHart (s.mem.hart.setRegister i (s.long src))), .run) := by
  simp [writeRegister, exec_append, exec_registerAddress hparam hbase haddr, step, hsrc]

theorem exec_resetZeroRegister (hbase : s.regs .r15 = base) :
    exec (hartBus base callbacks) params resetZeroRegister (s, .run) =
      .ok (s.withMem (s.mem.withHart (s.mem.hart.setRegister 0 0)), .run) := by
  simp [resetZeroRegister, step, hbase]

theorem exec_proceedToNextInstruction (hpc : s.regs .r14 = base + offsetOfPc) :
    exec (hartBus base callbacks) params proceedToNextInstruction (s, .run) =
      .ok ((s.withMem (s.mem.withHart
        { s.mem.hart with pc := s.mem.hart.pc + 4 })).dropFlags, .run) := by
  simp [proceedToNextInstruction, step, hpc]

end Sequences

/-! ## The templates -/

section Runs

variable {base : Quad} {callbacks : Callbacks ω} {s : X86.State (Machine ω)}
  {rd rs1 rs2 : RegisterIndex}

/-- Code runs to its end and leaves a machine. -/
def RunsTo (base : Quad) (callbacks : Callbacks ω) (params : List Word) (code : HostCode)
    (s : X86.State (Machine ω)) (m : Machine ω) : Prop :=
  ∃ s', exec (hartBus base callbacks) params code (s, .run) = .ok (s', .run) ∧ s'.mem = m ∧
    Entered base s'.regs

theorem RunsTo.seq {params : List Word} {code code' : HostCode} {s₁ : X86.State (Machine ω)}
    {m : Machine ω}
    (h : exec (hartBus base callbacks) params code (s, .run) = .ok (s₁, .run))
    (h' : RunsTo base callbacks params code' s₁ m) :
    RunsTo base callbacks params (code ++ code') s m := by
  obtain ⟨s', hexec, hmem, hregs⟩ := h'
  exact ⟨s', by rw [exec_append, h, ok_bind, hexec], hmem, hregs⟩

/-- `RESET_ZERO_REGISTER` and `PROCEED_TO_NEXT_INSTRUCTION`. -/
theorem RunsTo.proceed {params : List Word} {m : Machine ω} (hs : Entered base s.regs)
    (hm : s.mem.withHart s.mem.hart.proceed = m) :
    RunsTo base callbacks params (resetZeroRegister ++ proceedToNextInstruction) s m :=
  .seq (exec_resetZeroRegister hs.r15) ⟨_, exec_proceedToNextInstruction hs.r14, hm, hs⟩

/-- A write of the destination register, and the end of the instruction. -/
theorem RunsTo.writeProceed {params : List Word} {p : Nat} {addr src : Reg} {m : Machine ω}
    (hs : Entered base s.regs) (hparam : params[p]? = some (indexParam rd))
    (haddr : addr ∉ [.r12, .r14, .r15]) (hsrc : src ≠ addr)
    (hm : s.mem.withHart (s.mem.hart.setRegister rd (s.long src)).proceed = m) :
    RunsTo base callbacks params
      (writeRegister p addr src ++ (resetZeroRegister ++ proceedToNextInstruction)) s m := by
  simp only [List.mem_cons, List.not_mem_nil, or_false, not_or] at haddr
  refine .seq (exec_writeRegister hparam hs.r15 haddr.2.2 hsrc) (.proceed ?_ (by simpa using hm))
  constructor <;> simp [haddr.1, haddr.2.1, haddr.2.2, hs.r15, hs.r14, hs.r12, Ne.symm]

theorem runs_arithmetic (op : Alu) (hs : Entered base s.regs) :
    RunsTo base callbacks [indexParam rs1, indexParam rs2, indexParam rd] (arithmeticCode op) s
      (((s.mem.readOperand rs1).readOperand rs2).withHart
        (s.mem.hart.setRegister rd
          (op.eval (s.mem.hart.registers rs1) (s.mem.hart.registers rs2))).proceed) := by
  simp only [arithmeticCode, List.append_assoc]
  refine .seq (exec_readRegister (i := rs1) rfl hs.r15 (by decide)) ?_
  refine .seq (exec_readRegister (i := rs2) rfl (by simp [hs.r15]) (by decide)) ?_
  refine .seq rfl (.writeProceed ?_ rfl (by decide) (by decide) (by simp))
  constructor <;> simp [hs.r15, hs.r14, hs.r12]

theorem runs_sub (hs : Entered base s.regs) :
    RunsTo base callbacks [indexParam rs1, indexParam rs2, indexParam rd] subCode s
      (((s.mem.readOperand rs1).readOperand rs2).withHart
        (s.mem.hart.setRegister rd
          (s.mem.hart.registers rs1 - s.mem.hart.registers rs2)).proceed) := by
  simp only [subCode, List.append_assoc]
  refine .seq (exec_readRegister (i := rs1) rfl hs.r15 (by decide)) ?_
  refine .seq (exec_readRegister (i := rs2) rfl (by simp [hs.r15]) (by decide)) ?_
  refine .seq rfl (.writeProceed ?_ rfl (by decide) (by decide) (by simp [Alu.eval]))
  constructor <;> simp [hs.r15, hs.r14, hs.r12]

/-- The word that `setl` or `setb` and the extension behind it leave. -/
def conditionWord (c : Cond) (a b : Word) : Word := if c.holds (.compare a b) then 1 else 0

theorem setWidth_condition (c : Cond) (a b : Word) :
    (if c.holds (.compare a b) = true then 1#8 else 0#8).setWidth 32 = conditionWord c a b := by
  unfold conditionWord
  split <;> rfl

theorem runs_set (c : Cond) (hs : Entered base s.regs) :
    RunsTo base callbacks [indexParam rs1, indexParam rs2, indexParam rd] (setCode c) s
      (((s.mem.readOperand rs1).readOperand rs2).withHart
        (s.mem.hart.setRegister rd
          (conditionWord c (s.mem.hart.registers rs1) (s.mem.hart.registers rs2))).proceed) := by
  simp only [setCode, clearEcx, List.append_assoc]
  refine .seq rfl ?_
  refine .seq (exec_readRegister (i := rs1) rfl (by simp [hs.r15]) (by decide)) ?_
  refine .seq (exec_readRegister (i := rs2) rfl (by simp [hs.r15]) (by decide)) ?_
  refine .seq (by simp [step]; rfl) (.writeProceed ?_ rfl (by decide) (by decide) ?_)
  · constructor <;> simp [hs.r15, hs.r14, hs.r12]
  · simp [setWidth_condition]

theorem runs_shift (op : X86.Shift) (hs : Entered base s.regs) :
    RunsTo base callbacks [indexParam rs1, indexParam rs2, indexParam rd] (shiftCode op) s
      (((s.mem.readOperand rs1).readOperand rs2).withHart
        (s.mem.hart.setRegister rd (op.eval ((s.mem.hart.registers rs2 &&& 0x1f).toNat % 32)
          (s.mem.hart.registers rs1))).proceed) := by
  simp only [shiftCode, List.append_assoc]
  refine .seq (exec_readRegister (i := rs1) rfl hs.r15 (by decide)) ?_
  refine .seq (exec_readRegister (i := rs2) rfl (by simp [hs.r15]) (by decide)) ?_
  refine .seq rfl (.writeProceed ?_ rfl (by decide) (by decide) (by simp [Alu.eval]))
  constructor <;> simp [hs.r15, hs.r14, hs.r12]

variable {imm address : Word}

theorem runs_immediate (op : Alu) (hs : Entered base s.regs) :
    RunsTo base callbacks [imm, indexParam rs1, indexParam rd] (immediateCode op) s
      ((s.mem.readOperand rs1).withHart
        (s.mem.hart.setRegister rd (op.eval imm (s.mem.hart.registers rs1))).proceed) := by
  simp only [immediateCode, List.append_assoc]
  refine .seq (exec_readRegister (i := rs1) rfl hs.r15 (by decide)) ?_
  refine .seq rfl (.writeProceed ?_ rfl (by decide) (by decide) (by simp))
  constructor <;> simp [hs.r15, hs.r14, hs.r12]

theorem runs_clearEcx_immediate (op : Alu) (hs : Entered base s.regs) :
    RunsTo base callbacks [imm, indexParam rs1, indexParam rd] (clearEcx ++ immediateCode op) s
      ((s.mem.readOperand rs1).withHart
        (s.mem.hart.setRegister rd (op.eval imm (s.mem.hart.registers rs1))).proceed) := by
  refine .seq rfl (runs_immediate op ?_)
  constructor <;> simp [hs.r15, hs.r14, hs.r12]

theorem runs_setImmediate (c : Cond) (hs : Entered base s.regs) :
    RunsTo base callbacks [imm, indexParam rs1, indexParam rd] (setImmediateCode c) s
      ((s.mem.readOperand rs1).withHart
        (s.mem.hart.setRegister rd (conditionWord c (s.mem.hart.registers rs1) imm)).proceed) := by
  simp only [setImmediateCode, clearEcx, List.append_assoc]
  refine .seq rfl ?_
  refine .seq (exec_readRegister (i := rs1) rfl (by simp [hs.r15]) (by decide)) ?_
  refine .seq (by simp [step, param]; rfl) (.writeProceed ?_ rfl (by decide) (by decide) ?_)
  · constructor <;> simp [hs.r15, hs.r14, hs.r12]
  · simp [setWidth_condition]

theorem runs_shiftImmediate (op : X86.Shift) (hs : Entered base s.regs) :
    RunsTo base callbacks [imm, indexParam rs1, indexParam rd] (shiftImmediateCode op) s
      ((s.mem.readOperand rs1).withHart
        (s.mem.hart.setRegister rd
          (op.eval ((imm &&& 0x1f).toNat % 32) (s.mem.hart.registers rs1))).proceed) := by
  simp only [shiftImmediateCode, clearEcx, List.append_assoc]
  refine .seq rfl ?_
  refine .seq (exec_readRegister (i := rs1) rfl (by simp [hs.r15]) (by decide)) ?_
  refine .seq rfl (.writeProceed ?_ rfl (by decide) (by decide) (by simp [Alu.eval]))
  constructor <;> simp [hs.r15, hs.r14, hs.r12]

theorem runs_lui (hs : Entered base s.regs) :
    RunsTo base callbacks [imm, indexParam rd] Template.lui.code s
      (s.mem.withHart (s.mem.hart.setRegister rd (imm <<< 12)).proceed) := by
  have hpointer : (indexParam rd <<< 2).setWidth 64 + base = registerPointer base rd := rfl
  simp only [Template.code, List.append_assoc]
  refine .seq (by simp [step, param, Shift.eval, hs.r15, hpointer]; rfl) (.proceed ?_ (by simp))
  constructor <;> simp [hs.r15, hs.r14, hs.r12]

theorem runs_auipc (hs : Entered base s.regs) :
    RunsTo base callbacks [imm, indexParam rd, address] Template.auipc.code s
      (s.mem.withHart (s.mem.hart.setRegister rd (imm <<< 12 + address)).proceed) := by
  simp only [Template.code, List.append_assoc]
  refine .seq (exec_registerAddress (i := rd) rfl hs.r15 (by decide)) ?_
  refine .seq (by simp [step, param, Shift.eval, Alu.eval]; rfl) (.proceed ?_ (by simp))
  constructor <;> simp [hs.r15, hs.r14, hs.r12]

variable {target : Word}

/-- The end of a branch behind the reads of its operands. -/
theorem RunsTo.branchTail {params : List Word} {src dst : Reg} {skip : Cond} {m : Machine ω}
    (hs : Entered base s.regs) (hparam : params[2]? = some target)
    (hsrc : src ≠ .rdx) (hdst : dst ≠ .rdx)
    (hm : s.mem.withHart { s.mem.hart with
      pc := if skip.holds (.compare (s.long dst) (s.long src)) then s.mem.hart.pc + 4
        else target } = m) :
    RunsTo base callbacks params
      [.load .r14 .rdx, .aluImm .add 4 .rdx, .cmpl src dst, .jcc skip 1, .movlParam 2 .rdx,
        .label 1, .store .rdx .r14] s m := by
  subst hm
  by_cases hskip : skip.holds (.compare (s.long dst) (s.long src)) = true
  · refine ⟨_, by simp [step, hs.r14, hsrc, hdst, hskip, exec, advance]; rfl, ?_, ?_⟩
    · simp [hskip, Alu.eval]
    · constructor <;> simp [hs.r15, hs.r14, hs.r12]
  · refine ⟨_, by simp [step, param, hparam, hs.r14, hsrc, hdst, hskip]; rfl, ?_, ?_⟩
    · simp [hskip]
    · constructor <;> simp [hs.r15, hs.r14, hs.r12]

/-- `beq` and `bne` compare `rs2` with `rs1`. -/
theorem runs_branch_equal (skip : Cond) (hs : Entered base s.regs) :
    RunsTo base callbacks [indexParam rs1, indexParam rs2, target]
      (branchCode (.cmpl .rsi .rdi) skip) s
      (((s.mem.readOperand rs1).readOperand rs2).withHart { s.mem.hart with
        pc := if skip.holds (.compare (s.mem.hart.registers rs2) (s.mem.hart.registers rs1)) then
          s.mem.hart.pc + 4 else target }) := by
  simp only [branchCode, List.append_assoc]
  refine .seq (exec_readRegister (i := rs1) rfl hs.r15 (by decide)) ?_
  refine .seq (exec_readRegister (i := rs2) rfl (by simp [hs.r15]) (by decide)) ?_
  refine .branchTail ?_ rfl (by decide) (by decide) (by simp)
  constructor <;> simp [hs.r15, hs.r14, hs.r12]

/-- The other branches compare `rs1` with `rs2`. -/
theorem runs_branch_order (skip : Cond) (hs : Entered base s.regs) :
    RunsTo base callbacks [indexParam rs1, indexParam rs2, target]
      (branchCode (.cmpl .rdi .rsi) skip) s
      (((s.mem.readOperand rs1).readOperand rs2).withHart { s.mem.hart with
        pc := if skip.holds (.compare (s.mem.hart.registers rs1) (s.mem.hart.registers rs2)) then
          s.mem.hart.pc + 4 else target }) := by
  simp only [branchCode, List.append_assoc]
  refine .seq (exec_readRegister (i := rs1) rfl hs.r15 (by decide)) ?_
  refine .seq (exec_readRegister (i := rs2) rfl (by simp [hs.r15]) (by decide)) ?_
  refine .branchTail ?_ rfl (by decide) (by decide) (by simp)
  constructor <;> simp [hs.r15, hs.r14, hs.r12]

/-- A jump leaves the hart at its target with the link register written and the zero
register reset. -/
def Hart.jumped (hart : Hart) (rd : RegisterIndex) (link target : Word) : Hart :=
  { hart.setRegister rd link with pc := target }.setRegister 0 0

theorem runs_jal {link : Word} (hs : Entered base s.regs) :
    RunsTo base callbacks [indexParam rd, link, target] jalCode s
      (s.mem.withHart (s.mem.hart.jumped rd link target)) := by
  simp only [jalCode, List.append_assoc]
  refine .seq (exec_registerAddress (i := rd) rfl hs.r15 (by decide)) ?_
  refine .seq (by simp [step, param, hs.r14]; rfl)
    ⟨_, exec_resetZeroRegister (by simp [hs.r15]), ?_, ?_⟩
  · simp [Hart.jumped]
  · constructor <;> simp [hs.r15, hs.r14, hs.r12]

theorem runs_jalr {link offset : Word} (hs : Entered base s.regs) :
    RunsTo base callbacks [indexParam rd, link, indexParam rs1, offset] jalrCode s
      ((s.mem.readOperand rs1).withHart (s.mem.hart.jumped rd link
        ((s.mem.hart.registers rs1 + offset) &&& ~~~1#32))) := by
  simp only [jalrCode, List.append_assoc]
  refine .seq (exec_readRegister (i := rs1) rfl hs.r15 (by decide)) ?_
  refine .seq rfl ?_
  refine .seq (exec_registerAddress (i := rd) rfl (by simp [hs.r15]) (by decide)) ?_
  refine .seq (by simp [step, param, hs.r14]; rfl)
    ⟨_, exec_resetZeroRegister (by simp [hs.r15]), ?_, ?_⟩
  · simp [Hart.jumped, Alu.eval]
  · constructor <;> simp [hs.r15, hs.r14, hs.r12]

end Runs

end Hyrule
