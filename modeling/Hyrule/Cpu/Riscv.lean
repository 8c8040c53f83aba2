import Hyrule.Cpu.Hart

/-!
# The instruction set

What RV32IMA says about an instruction word, written down from the instruction
set and not from the sources.  `decode` is the grammar: it reads the fields of a
word and gives nothing for a word that is reserved or belongs to another
extension.  `Instruction.step` is the effect of the instructions that touch only
the registers and the pc.  A write of `x0` is dropped, and arithmetic wraps
around.

Where a jump to an address that is not a multiple of 4 is trapped depends on the
alignment that the execution environment asks for, and is not part of the
effect.
-/

namespace Hyrule.Riscv

/-! ## Fields of an instruction word -/

/-- The `len` bits of a word from the bit `lo` on. -/
def field (w : Word) (lo len : Nat) : Nat := (w.extractLsb' lo len).toNat

theorem field_lt (w : Word) (lo len : Nat) : field w lo len < 2 ^ len := BitVec.isLt _

/-- The register that 5 bits of a word name. -/
def register (w : Word) (lo : Nat) : RegisterIndex := ⟨field w lo 5, field_lt w lo 5⟩

def opcode (w : Word) : Nat := field w 0 7
def funct3 (w : Word) : Nat := field w 12 3
def funct7 (w : Word) : Nat := field w 25 7
def funct5 (w : Word) : Nat := field w 27 5
def rd (w : Word) : RegisterIndex := register w 7
def rs1 (w : Word) : RegisterIndex := register w 15
def rs2 (w : Word) : RegisterIndex := register w 20
def shamt (w : Word) : Fin 32 := ⟨field w 20 5, field_lt w 20 5⟩

/-- The immediates of the encoding formats. -/
def immI (w : Word) : Word := (w.extractLsb' 20 12).signExtend 32
def immS (w : Word) : Word := (w.extractLsb' 25 7 ++ w.extractLsb' 7 5).signExtend 32
def immB (w : Word) : Word :=
  (w.extractLsb' 31 1 ++ w.extractLsb' 7 1 ++ w.extractLsb' 25 6 ++ w.extractLsb' 8 4 ++
    0#1).signExtend 32
def immU (w : Word) : BitVec 20 := w.extractLsb' 12 20
def immJ (w : Word) : Word :=
  (w.extractLsb' 31 1 ++ w.extractLsb' 12 8 ++ w.extractLsb' 20 1 ++ w.extractLsb' 21 10 ++
    0#1).signExtend 32

/-! ## Instructions -/

/-- The conditions of a branch. -/
inductive BranchOp where
  | beq | bne | blt | bge | bltu | bgeu
deriving DecidableEq, Repr

/-- The loads. -/
inductive LoadOp where
  | lb | lh | lw | lbu | lhu
deriving DecidableEq, Repr

/-- The stores. -/
inductive StoreOp where
  | sb | sh | sw
deriving DecidableEq, Repr

/-- The arithmetic on a register and an immediate. -/
inductive ImmOp where
  | addi | slti | sltiu | xori | ori | andi
deriving DecidableEq, Repr

/-- The shifts. -/
inductive ShiftOp where
  | sll | srl | sra
deriving DecidableEq, Repr

/-- The arithmetic on two registers that is not a shift. -/
inductive RegOp where
  | add | sub | slt | sltu | xor | or | and
deriving DecidableEq, Repr

/-- The multiplications and divisions. -/
inductive MulOp where
  | mul | mulh | mulhsu | mulhu | div | divu | rem | remu
deriving DecidableEq, Repr

/-- The atomic operations that read and write a word. -/
inductive AmoOp where
  | swap | add | xor | and | or | min | max | minu | maxu
deriving DecidableEq, Repr

/-- The instructions of RV32IMA and `fence.i`, without the ordering bits of a fence
or an atomic operation. -/
inductive Instruction where
  | lui (rd : RegisterIndex) (imm : BitVec 20)
  | auipc (rd : RegisterIndex) (imm : BitVec 20)
  | jal (rd : RegisterIndex) (offset : Word)
  | jalr (rd rs1 : RegisterIndex) (offset : Word)
  | branch (op : BranchOp) (rs1 rs2 : RegisterIndex) (offset : Word)
  | load (op : LoadOp) (rd rs1 : RegisterIndex) (offset : Word)
  | store (op : StoreOp) (rs1 rs2 : RegisterIndex) (offset : Word)
  | opImm (op : ImmOp) (rd rs1 : RegisterIndex) (imm : Word)
  | shiftImm (op : ShiftOp) (rd rs1 : RegisterIndex) (shamt : Fin 32)
  | opReg (op : RegOp) (rd rs1 rs2 : RegisterIndex)
  | shift (op : ShiftOp) (rd rs1 rs2 : RegisterIndex)
  | mul (op : MulOp) (rd rs1 rs2 : RegisterIndex)
  | lr (rd rs1 : RegisterIndex)
  | sc (rd rs1 rs2 : RegisterIndex)
  | amo (op : AmoOp) (rd rs1 rs2 : RegisterIndex)
  | fence
  | fenceI
  | ecall
  | ebreak
deriving DecidableEq, Repr

/-! ## The grammar -/

/-- The branches, by `funct3`. -/
def branchOp : Nat → Option BranchOp
  | 0 => some .beq
  | 1 => some .bne
  | 4 => some .blt
  | 5 => some .bge
  | 6 => some .bltu
  | 7 => some .bgeu
  | _ => none

/-- The loads, by `funct3`. -/
def loadOp : Nat → Option LoadOp
  | 0 => some .lb
  | 1 => some .lh
  | 2 => some .lw
  | 4 => some .lbu
  | 5 => some .lhu
  | _ => none

/-- The stores, by `funct3`. -/
def storeOp : Nat → Option StoreOp
  | 0 => some .sb
  | 1 => some .sh
  | 2 => some .sw
  | _ => none

/-- The multiplications and divisions, by `funct3`. -/
def mulOp : Nat → Option MulOp
  | 0 => some .mul
  | 1 => some .mulh
  | 2 => some .mulhsu
  | 3 => some .mulhu
  | 4 => some .div
  | 5 => some .divu
  | 6 => some .rem
  | 7 => some .remu
  | _ => none

/-- The atomic operations, by `funct5`. -/
def amoOp : Nat → Option AmoOp
  | 0x01 => some .swap
  | 0x00 => some .add
  | 0x04 => some .xor
  | 0x0c => some .and
  | 0x08 => some .or
  | 0x10 => some .min
  | 0x14 => some .max
  | 0x18 => some .minu
  | 0x1c => some .maxu
  | _ => none

/-- The operations on an immediate, by `funct3`. -/
def immOp : Nat → Option ImmOp
  | 0 => some .addi
  | 2 => some .slti
  | 3 => some .sltiu
  | 4 => some .xori
  | 6 => some .ori
  | 7 => some .andi
  | _ => none

/-- The operations on two registers, by `funct3` and `funct7`. -/
def regOp : (funct3 funct7 : Nat) → Option RegOp
  | 0, 0x00 => some .add
  | 0, 0x20 => some .sub
  | 2, 0x00 => some .slt
  | 3, 0x00 => some .sltu
  | 4, 0x00 => some .xor
  | 6, 0x00 => some .or
  | 7, 0x00 => some .and
  | _, _ => none

/-- The shifts, by `funct3` and `funct7`. -/
def shiftOp : (funct3 funct7 : Nat) → Option ShiftOp
  | 1, 0x00 => some .sll
  | 5, 0x00 => some .srl
  | 5, 0x20 => some .sra
  | _, _ => none

/-- `OP-IMM`. -/
def decodeOpImm (w : Word) : Option Instruction :=
  match immOp (funct3 w) with
  | some op => some (.opImm op (rd w) (rs1 w) (immI w))
  | none =>
      (shiftOp (funct3 w) (funct7 w)).map fun op => .shiftImm op (rd w) (rs1 w) (shamt w)

/-- `OP`. -/
def decodeOp (w : Word) : Option Instruction :=
  if funct7 w = 0x01 then (mulOp (funct3 w)).map fun op => .mul op (rd w) (rs1 w) (rs2 w)
  else
    match regOp (funct3 w) (funct7 w) with
    | some op => some (.opReg op (rd w) (rs1 w) (rs2 w))
    | none => (shiftOp (funct3 w) (funct7 w)).map fun op => .shift op (rd w) (rs1 w) (rs2 w)

/-- `AMO`, on words.  The register field that `lr.w` does not use has to be zero. -/
def decodeAmo (w : Word) : Option Instruction :=
  if funct3 w = 2 then
    match funct5 w with
    | 0x02 => if rs2 w = 0 then some (.lr (rd w) (rs1 w)) else none
    | 0x03 => some (.sc (rd w) (rs1 w) (rs2 w))
    | f => (amoOp f).map fun op => .amo op (rd w) (rs1 w) (rs2 w)
  else none

/-- `MISC-MEM`.  The other fields of a fence are reserved for finer fences and are
ignored. -/
def decodeMiscMem (w : Word) : Option Instruction :=
  match funct3 w with
  | 0 => some .fence
  | 1 => some .fenceI
  | _ => none

/-- `SYSTEM`, without the instructions of `Zicsr` and of the privileged modes. -/
def decodeSystem (w : Word) : Option Instruction :=
  if w = 0x00000073 then some .ecall
  else if w = 0x00100073 then some .ebreak
  else none

/-- The instruction that a word encodes, if it is a legal one. -/
def decode (w : Word) : Option Instruction :=
  match opcode w with
  | 0x37 => some (.lui (rd w) (immU w))
  | 0x17 => some (.auipc (rd w) (immU w))
  | 0x6f => some (.jal (rd w) (immJ w))
  | 0x67 => if funct3 w = 0 then some (.jalr (rd w) (rs1 w) (immI w)) else none
  | 0x63 => (branchOp (funct3 w)).map fun op => .branch op (rs1 w) (rs2 w) (immB w)
  | 0x03 => (loadOp (funct3 w)).map fun op => .load op (rd w) (rs1 w) (immI w)
  | 0x23 => (storeOp (funct3 w)).map fun op => .store op (rs1 w) (rs2 w) (immS w)
  | 0x13 => decodeOpImm w
  | 0x33 => decodeOp w
  | 0x0f => decodeMiscMem w
  | 0x73 => decodeSystem w
  | 0x2f => decodeAmo w
  | _ => none

/-! ## The effect on the registers -/

/-- The word with the given upper bits. -/
def upper (imm : BitVec 20) : Word := imm ++ 0#12

/-- The branch is taken. -/
def BranchOp.taken : BranchOp → (a b : Word) → Bool
  | .beq, a, b => decide (a = b)
  | .bne, a, b => !decide (a = b)
  | .blt, a, b => a.slt b
  | .bge, a, b => !a.slt b
  | .bltu, a, b => a.ult b
  | .bgeu, a, b => !a.ult b

/-- The word `1` or `0`. -/
def ofBool (b : Bool) : Word := if b then 1 else 0

/-- The result of an operation on a register and an immediate. -/
def ImmOp.eval : ImmOp → (a imm : Word) → Word
  | .addi, a, imm => a + imm
  | .slti, a, imm => ofBool (a.slt imm)
  | .sltiu, a, imm => ofBool (a.ult imm)
  | .xori, a, imm => a ^^^ imm
  | .ori, a, imm => a ||| imm
  | .andi, a, imm => a &&& imm

/-- The result of a shift. -/
def ShiftOp.eval : ShiftOp → Word → (shamt : Nat) → Word
  | .sll, a, shamt => a <<< shamt
  | .srl, a, shamt => a >>> shamt
  | .sra, a, shamt => a.sshiftRight shamt

/-- The result of an operation on two registers. -/
def RegOp.eval : RegOp → (a b : Word) → Word
  | .add, a, b => a + b
  | .sub, a, b => a - b
  | .slt, a, b => ofBool (a.slt b)
  | .sltu, a, b => ofBool (a.ult b)
  | .xor, a, b => a ^^^ b
  | .or, a, b => a ||| b
  | .and, a, b => a &&& b

/-- The register that an instruction writes. -/
def Instruction.destination : Instruction → Option RegisterIndex
  | .lui rd _ | .auipc rd _ | .jal rd _ | .jalr rd _ _ | .load _ rd _ _ | .opImm _ rd _ _
  | .shiftImm _ rd _ _ | .opReg _ rd _ _ | .shift _ rd _ _ | .mul _ rd _ _ | .lr rd _
  | .sc rd _ _ | .amo _ rd _ _ => some rd
  | .branch .. | .store .. | .fence | .fenceI | .ecall | .ebreak => none

/-- A write of a register. -/
def write (hart : Hart) (rd : RegisterIndex) (value : Word) : Hart :=
  if rd = 0 then hart else hart.setRegister rd value

/-- The hart behind an instruction that touches only the registers and the pc. -/
def Instruction.step (hart : Hart) : Instruction → Option Hart
  | .lui rd imm => some { write hart rd (upper imm) with pc := hart.pc + 4 }
  | .auipc rd imm => some { write hart rd (hart.pc + upper imm) with pc := hart.pc + 4 }
  | .jal rd offset => some { write hart rd (hart.pc + 4) with pc := hart.pc + offset }
  | .jalr rd rs1 offset =>
      some { write hart rd (hart.pc + 4) with pc := (hart.registers rs1 + offset) &&& ~~~1#32 }
  | .branch op rs1 rs2 offset =>
      let taken := op.taken (hart.registers rs1) (hart.registers rs2)
      some { hart with pc := hart.pc + if taken then offset else 4 }
  | .opImm op rd rs1 imm =>
      some { write hart rd (op.eval (hart.registers rs1) imm) with pc := hart.pc + 4 }
  | .shiftImm op rd rs1 shamt =>
      some { write hart rd (op.eval (hart.registers rs1) shamt) with pc := hart.pc + 4 }
  | .opReg op rd rs1 rs2 =>
      let value := op.eval (hart.registers rs1) (hart.registers rs2)
      some { write hart rd value with pc := hart.pc + 4 }
  | .shift op rd rs1 rs2 =>
      -- The amount is the low 5 bits of the register.
      let value := op.eval (hart.registers rs1) ((hart.registers rs2).toNat % 32)
      some { write hart rd value with pc := hart.pc + 4 }
  | _ => none

end Hyrule.Riscv
