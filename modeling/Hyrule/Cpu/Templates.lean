import Hyrule.Cpu.Decode
import Hyrule.Lib.X86

/-!
# Translated blocks

The templates of the `translate_*.c` files, and the dispatch from an
instruction word to its translator.  A translator commits a copy of its template
with the parameters it wrote behind the code.  Inside a block `r15` is the
address of the hart's registers, `r14` the address of its pc, and `r12` the
address of the hart.

The templates repeat a few sequences: the address of the register that a
parameter names, a read and a write of it, and the sequence that ends an
instruction that falls through.  These are written once here.
-/

namespace Hyrule

open Lib Lib.Result Lib.X86

/-! ## Templates -/

/-- The C functions that a block calls. -/
inductive Callback where
  | mmuRead8
  | mmuRead16
  | mmuRead32
  | mmuWrite8
  | mmuWrite16
  | mmuWrite32
  | amoInstructionSlowpath
  | flushTranslationCache
  | ecallCallback
deriving DecidableEq

/-- x86 code that calls these functions. -/
abbrev HostCode := List (X86.Instr Callback)

/-- The address of the register that a parameter names. -/
def registerAddress (i : Nat) (addr : Reg) : HostCode :=
  [.movlParam i addr, .shift .shl 2 addr, .addq .r15 addr]

/-- The value of the register that a parameter names. -/
def readRegister (i : Nat) (addr dst : Reg) : HostCode :=
  registerAddress i addr ++ [.load addr dst]

/-- A write of the register that a parameter names. -/
def writeRegister (i : Nat) (addr src : Reg) : HostCode :=
  registerAddress i addr ++ [.store src addr]

/-- `RESET_ZERO_REGISTER`. -/
def resetZeroRegister : HostCode := [.storeImm 0 .r15]

/-- `PROCEED_TO_NEXT_INSTRUCTION`. -/
def proceedToNextInstruction : HostCode := [.addlMem 4 .r14]

/-- A call with the context saved by `SAVE_GUEST_CONTEXT_SWITCH_REGS`. -/
def callC (f : Callback) : HostCode := [.call f [.r15, .r14, .r13, .r12]]

/-- The code blocks, under the names of their translation labels. -/
inductive Template where
  | lui | auipc | jal | jalr
  | beq | bne | blt | bge | bltu | bgeu
  | lb | lh | lw | lbu | lhu
  | sb | sh | sw
  | addi | stli | stliu | xori | ori | andi | slli | srli | srai
  | add | sub | sll | slt | sltu | xor | srl | sra | or | and
  | mul | mulh | mulhsu | mulhu | div | divu | rem | remu
  | fence | fenceI | ecall | amo
deriving DecidableEq, Repr

/-- The templates of `translate_arithmetic_immediate.c` with an arithmetic
instruction.  All but that of `addi` clear `ecx` first. -/
def immediateCode (op : Alu) : HostCode :=
  readRegister 1 .rdx .rax ++ [.movlParam 0 .rdx, .alu op .rdx .rax] ++
    writeRegister 2 .rdx .rax ++ resetZeroRegister ++ proceedToNextInstruction

/-- `xor %ecx, %ecx`. -/
def clearEcx : HostCode := [.alu .xor .rcx .rcx]

/-- The templates of `stli` and `stliu`. -/
def setImmediateCode (c : Cond) : HostCode :=
  clearEcx ++ readRegister 1 .rdx .rax ++ [.cmplParam 0 .rax, .set c .rcx, .movzbl .rcx .rcx] ++
    writeRegister 2 .rdx .rcx ++ resetZeroRegister ++ proceedToNextInstruction

/-- The templates of `slli`, `srli` and `srai`. -/
def shiftImmediateCode (op : X86.Shift) : HostCode :=
  clearEcx ++ readRegister 1 .rdx .rax ++
    [.movlParam 0 .rcx, .aluImm .and 0x1f .rcx, .shiftCl op .rax] ++
    writeRegister 2 .rdx .rax ++ resetZeroRegister ++ proceedToNextInstruction

/-- The templates of `add`, `and`, `or` and `xor`. -/
def arithmeticCode (op : Alu) : HostCode :=
  readRegister 0 .rdx .rsi ++ readRegister 1 .rdx .rax ++ [.alu op .rsi .rax] ++
    writeRegister 2 .rdx .rax ++ resetZeroRegister ++ proceedToNextInstruction

/-- The template of `sub`. -/
def subCode : HostCode :=
  readRegister 0 .rdx .rax ++ readRegister 1 .rdx .rsi ++ [.alu .sub .rsi .rax] ++
    writeRegister 2 .rdx .rax ++ resetZeroRegister ++ proceedToNextInstruction

/-- The templates of `slt` and `sltu`. -/
def setCode (c : Cond) : HostCode :=
  clearEcx ++ readRegister 0 .rdx .rsi ++ readRegister 1 .rdx .rdi ++
    [.cmpl .rdi .rsi, .set c .rcx, .movzbl .rcx .rcx] ++
    writeRegister 2 .rdx .rcx ++ resetZeroRegister ++ proceedToNextInstruction

/-- The templates of `sll`, `srl` and `sra`. -/
def shiftCode (op : X86.Shift) : HostCode :=
  readRegister 0 .rdx .rax ++ readRegister 1 .rdx .rcx ++
    [.aluImm .and 0x1f .rcx, .shiftCl op .rax] ++
    writeRegister 2 .rdx .rax ++ resetZeroRegister ++ proceedToNextInstruction

/-- The templates of `translate_branch.c`.  The target stays in `edx`, and the jump
skips the taken target.  `beq` and `bne` compare the other way around. -/
def branchCode (compare : X86.Instr Callback) (skip : Cond) : HostCode :=
  readRegister 0 .rdx .rsi ++ readRegister 1 .rdx .rdi ++
    [.load .r14 .rdx, .aluImm .add 4 .rdx, compare, .jcc skip 1, .movlParam 2 .rdx, .label 1,
      .store .rdx .r14]

/-- The template of `jal`. -/
def jalCode : HostCode :=
  registerAddress 0 .rdx ++ [.movlParam 1 .rax, .store .rax .rdx, .movlParam 2 .rax,
    .store .rax .r14] ++ resetZeroRegister

/-- The template of `jalr`. -/
def jalrCode : HostCode :=
  readRegister 2 .rdx .rbx ++ [.movlParam 3 .rax, .alu .add .rax .rbx, .btr 0 .rbx] ++
    registerAddress 0 .rdx ++ [.movlParam 1 .rax, .store .rax .rdx, .store .rbx .r14] ++
    resetZeroRegister

/-- The templates of `translate_memory_load.c`, with the extension of what was read. -/
def loadCode (read : Callback) (extend : HostCode) : HostCode :=
  readRegister 1 .rdx .rsi ++ [.movlParam 0 .rdx, .alu .add .rdx .rsi, .movq .r12 .rdi] ++
    callC read ++ registerAddress 2 .rdx ++ extend ++ [.store .rax .rdx] ++
    resetZeroRegister ++ proceedToNextInstruction

/-- The templates of `translate_memory_store.c`, with the mask of what is written. -/
def storeCode (write : Callback) (mask : HostCode) : HostCode :=
  readRegister 1 .rdx .rsi ++ [.movlParam 0 .rdx, .alu .add .rdx .rsi] ++
    readRegister 2 .rdx .rdx ++ mask ++ [.movq .r12 .rdi] ++ callC write ++
    proceedToNextInstruction

/-- The templates of `mul`, `mulh` and `mulhu`. -/
def mulCode (op : X86.Instr Callback) (result : Reg) : HostCode :=
  readRegister 0 .rsi .rdx ++ readRegister 1 .rsi .rax ++ [op] ++
    writeRegister 2 .rdi result ++ resetZeroRegister ++ proceedToNextInstruction

/-- The template of `mulhsu`. -/
def mulhsuCode : HostCode :=
  readRegister 0 .rsi .rax ++ [.movsxd .rax .rax] ++ readRegister 1 .rsi .rdx ++
    [.imulq .rdx, .shrq 32 .rax] ++
    writeRegister 2 .rdi .rax ++ resetZeroRegister ++ proceedToNextInstruction

/-- `EDX:EAX` is the dividend with its sign, or without one. -/
def signedDividend : HostCode := [.movsxd .rax .rdx, .shrq 32 .rdx]
def unsignedDividend : HostCode := [.alu .xor .rdx .rdx]

/-- The templates of `div` and `divu`, which test the divisor. -/
def divCode (dividend : HostCode) (op : X86.Instr Callback) : HostCode :=
  readRegister 0 .rsi .rax ++ dividend ++ readRegister 1 .rsi .rbx ++
    [.movl .rbx .r8, .cmplImm 0 .r8, .jcc .ne 1, .movlImm 0xffffffff .rax, .jmp 2, .label 1, op,
      .label 2] ++
    writeRegister 2 .rdi .rax ++ resetZeroRegister ++ proceedToNextInstruction

/-- The templates of `rem` and `remu`, which do not. -/
def remCode (dividend : HostCode) (op : X86.Instr Callback) : HostCode :=
  readRegister 0 .rsi .rax ++ dividend ++ readRegister 1 .rsi .rbx ++ [op] ++
    writeRegister 2 .rdi .rdx ++ resetZeroRegister ++ proceedToNextInstruction

/-- The template of the atomic operations. -/
def amoCode : HostCode :=
  [.movq .r12 .rdi, .movlParam 0 .rsi, .movlParam 1 .rdx, .movlParam 2 .rcx, .movlParam 3 .r8] ++
    callC .amoInstructionSlowpath ++ resetZeroRegister ++ proceedToNextInstruction

/-- The code of a template, up to where it falls through or traps. -/
def Template.code : Template → HostCode
  | .lui => [.movlParam 0 .rax, .movlParam 1 .rdx, .shift .shl 12 .rax, .shift .shl 2 .rdx,
      .addq .r15 .rdx, .store .rax .rdx] ++ resetZeroRegister ++ proceedToNextInstruction
  | .auipc => registerAddress 1 .rdx ++ [.movlParam 0 .rax, .shift .shl 12 .rax,
      .movlParam 2 .rcx, .alu .add .rcx .rax, .store .rax .rdx] ++
      resetZeroRegister ++ proceedToNextInstruction
  | .jal => jalCode
  | .jalr => jalrCode
  | .beq => branchCode (.cmpl .rsi .rdi) .ne
  | .bne => branchCode (.cmpl .rsi .rdi) .e
  | .blt => branchCode (.cmpl .rdi .rsi) .ge
  | .bltu => branchCode (.cmpl .rdi .rsi) .ae
  | .bge => branchCode (.cmpl .rdi .rsi) .l
  | .bgeu => branchCode (.cmpl .rdi .rsi) .b
  | .lb => loadCode .mmuRead8 [.movsbl .rax .rax]
  | .lbu => loadCode .mmuRead8 [.movzbl .rax .rax]
  | .lh => loadCode .mmuRead16 [.movswl .rax .rax]
  | .lhu => loadCode .mmuRead16 [.movzwl .rax .rax]
  | .lw => loadCode .mmuRead32 []
  | .sb => storeCode .mmuWrite8 [.aluImm .and 0xff .rdx]
  | .sh => storeCode .mmuWrite16 [.aluImm .and 0xffff .rdx]
  | .sw => storeCode .mmuWrite32 []
  | .addi => immediateCode .add
  | .stli => setImmediateCode .l
  | .stliu => setImmediateCode .b
  | .xori => clearEcx ++ immediateCode .xor
  | .ori => clearEcx ++ immediateCode .or
  | .andi => clearEcx ++ immediateCode .and
  | .slli => shiftImmediateCode .shl
  | .srli => shiftImmediateCode .shr
  | .srai => shiftImmediateCode .sar
  | .add => arithmeticCode .add
  | .sub => subCode
  | .and => arithmeticCode .and
  | .or => arithmeticCode .or
  | .xor => arithmeticCode .xor
  | .slt => setCode .l
  | .sltu => setCode .b
  | .sll => shiftCode .shl
  | .srl => shiftCode .shr
  | .sra => shiftCode .sar
  | .mul => mulCode (.imull .rdx) .rax
  | .mulh => mulCode (.imull .rdx) .rdx
  | .mulhu => mulCode (.mull .rdx) .rdx
  | .mulhsu => mulhsuCode
  | .div => divCode signedDividend (.idivl .rbx)
  | .divu => divCode unsignedDividend (.divl .rbx)
  | .rem => remCode signedDividend (.idivl .rbx)
  | .remu => remCode unsignedDividend (.divl .rbx)
  | .fence => proceedToNextInstruction
  | .fenceI => [.movq .r12 .rdi] ++ callC .flushTranslationCache ++ proceedToNextInstruction
  | .ecall => [.movq .r12 .rdi] ++ callC .ecallCallback ++ proceedToNextInstruction
  | .amo => amoCode

/-- The template ends with `END_INSTRUCTION`, not with `TRAP_TO_VMM`. -/
def Template.fallsThrough : Template → Bool
  | .jal | .jalr | .beq | .bne | .blt | .bltu | .bge | .bgeu | .fenceI | .ecall => false
  | _ => true

/-- What a translator commits. -/
structure TranslatedBlock where
  template : Template
  params : List Word

/-! ## Translators -/

/-- The word that a field of a decoding is as a parameter. -/
def Byte.param (field : Byte) : Word := field.setWidth 32

/-- `riscv_lui_translator`. -/
def riscvLuiTranslator (_address instruction : Word) : Result TranslatedBlock :=
  let dec := instructionDecodingPerType instruction .u
  return ⟨.lui, [dec.imm, Byte.param dec.rdIndex]⟩

/-- `riscv_auipc_translator`. -/
def riscvAuipcTranslator (address instruction : Word) : Result TranslatedBlock :=
  let dec := instructionDecodingPerType instruction .u
  return ⟨.auipc, [dec.imm, Byte.param dec.rdIndex, address]⟩

/-- `riscv_jal_translator`. -/
def riscvJalTranslator (address instruction : Word) : Result TranslatedBlock :=
  let dec := instructionDecodingPerType instruction .uj
  let jumpTarget := address + signExtend32 (dec.imm <<< 1) 20
  return ⟨.jal, [Byte.param dec.rdIndex, address + 4, jumpTarget]⟩

/-- `riscv_jalr_translator`. -/
def riscvJalrTranslator (address instruction : Word) : Result TranslatedBlock :=
  let dec := instructionDecodingPerType instruction .i
  let signedOffset := signExtend32 dec.imm 11
  return ⟨.jalr, [Byte.param dec.rdIndex, address + 4, Byte.param dec.rs1Index, signedOffset]⟩

/-- `riscv_beq_translator` to `riscv_bgeu_translator`. -/
def riscvBranchTranslator (template : Template) (address : Word) (dec : Decoding) :
    TranslatedBlock :=
  let branchTakenTarget := address + signExtend32 (dec.imm <<< 1) 12
  ⟨template, [Byte.param dec.rs1Index, Byte.param dec.rs2Index, branchTakenTarget]⟩

/-- `per_funct3_handlers` of `translate_branch.c`. -/
def branchHandlers (funct3 : Byte) : Option Template :=
  match funct3.toNat with
  | 0x0 => some .beq
  | 0x1 => some .bne
  | 0x4 => some .blt
  | 0x6 => some .bltu
  | 0x5 => some .bge
  | 0x7 => some .bgeu
  | _ => none

/-- `riscv_branch_instructions_translation_entry`. -/
def riscvBranchInstructionsTranslationEntry (address instruction : Word) :
    Result TranslatedBlock := do
  let dec := instructionDecodingPerType instruction .b
  return riscvBranchTranslator (← require (branchHandlers dec.funct3)) address dec

/-- The translators of the loads and of the immediate arithmetic that is not a
shift. -/
def riscvImmediateTranslator (template : Template) (dec : Decoding) : TranslatedBlock :=
  ⟨template, [signExtend32 dec.imm 11, Byte.param dec.rs1Index, Byte.param dec.rdIndex]⟩

/-- `per_funct3_handlers` of `translate_memory_load.c`. -/
def loadHandlers (funct3 : Byte) : Option Template :=
  match funct3.toNat with
  | 2 => some .lw
  | 1 => some .lh
  | 5 => some .lhu
  | 0 => some .lb
  | 4 => some .lbu
  | _ => none

/-- `riscv_memory_load_instructions_translation_entry`. -/
def riscvMemoryLoadInstructionsTranslationEntry (_address instruction : Word) :
    Result TranslatedBlock := do
  let dec := instructionDecodingPerType instruction .i
  return riscvImmediateTranslator (← require (loadHandlers dec.funct3)) dec

/-- `riscv_sb_translator`, `riscv_sh_translator` and `riscv_sw_translator`. -/
def riscvStoreTranslator (template : Template) (dec : Decoding) : TranslatedBlock :=
  ⟨template, [signExtend32 dec.imm 11, Byte.param dec.rs1Index, Byte.param dec.rs2Index]⟩

/-- `per_funct3_handlers` of `translate_memory_store.c`. -/
def storeHandlers (funct3 : Byte) : Option Template :=
  match funct3.toNat with
  | 0 => some .sb
  | 1 => some .sh
  | 2 => some .sw
  | _ => none

/-- `riscv_memory_store_instructions_translation_entry`. -/
def riscvMemoryStoreInstructionsTranslationEntry (_address instruction : Word) :
    Result TranslatedBlock := do
  let dec := instructionDecodingPerType instruction .s
  return riscvStoreTranslator (← require (storeHandlers dec.funct3)) dec

/-- `riscv_slli_translator` and the halves of `riscv_right_shift_translator`, which
pass the immediate as it is. -/
def riscvShiftImmediateTranslator (template : Template) (dec : Decoding) : TranslatedBlock :=
  ⟨template, [dec.imm, Byte.param dec.rs1Index, Byte.param dec.rdIndex]⟩

/-- `riscv_right_shift_translator`. -/
def riscvRightShiftTranslator (dec : Decoding) : TranslatedBlock :=
  if dec.imm &&& 0x400 = 0 then riscvShiftImmediateTranslator .srli dec
  else riscvShiftImmediateTranslator .srai dec

/-- `per_funct3_handlers` of `translate_arithmetic_immediate.c`. -/
def immediateHandlers (funct3 : Byte) : Option (Decoding → TranslatedBlock) :=
  match funct3.toNat with
  | 0x0 => some (riscvImmediateTranslator .addi)
  | 0x1 => some (riscvShiftImmediateTranslator .slli)
  | 0x2 => some (riscvImmediateTranslator .stli)
  | 0x3 => some (riscvImmediateTranslator .stliu)
  | 0x4 => some (riscvImmediateTranslator .xori)
  | 0x5 => some riscvRightShiftTranslator
  | 0x6 => some (riscvImmediateTranslator .ori)
  | 0x7 => some (riscvImmediateTranslator .andi)
  | _ => none

/-- `riscv_arithmetic_immediate_instructions_translation_entry`. -/
def riscvArithmeticImmediateInstructionsTranslationEntry (_address instruction : Word) :
    Result TranslatedBlock := do
  let dec := instructionDecodingPerType instruction .i
  return (← require (immediateHandlers dec.funct3)) dec

/-- The translators of the arithmetic on two registers. -/
def riscvRegisterTranslator (template : Template) (dec : Decoding) : TranslatedBlock :=
  ⟨template, [Byte.param dec.rs1Index, Byte.param dec.rs2Index, Byte.param dec.rdIndex]⟩

/-- `riscv_add_sub_translator`. -/
def riscvAddSubTranslator (dec : Decoding) : Result TranslatedBlock :=
  if dec.funct7 = 0x20 then return riscvRegisterTranslator .sub dec
  else do
    check (dec.funct7 = 0)
    return riscvRegisterTranslator .add dec

/-- `riscv_srl_sra_translator`. -/
def riscvSrlSraTranslator (dec : Decoding) : Result TranslatedBlock :=
  if dec.funct7 = 0x20 then return riscvRegisterTranslator .sra dec
  else do
    check (dec.funct7 = 0)
    return riscvRegisterTranslator .srl dec

/-- `per_funct3_handlers` of `translate_arithmetic.c`. -/
def arithmeticHandlers (funct3 : Byte) : Option (Decoding → Result TranslatedBlock) :=
  match funct3.toNat with
  | 0x0 => some riscvAddSubTranslator
  | 0x7 => some fun dec => return riscvRegisterTranslator .and dec
  | 0x6 => some fun dec => return riscvRegisterTranslator .or dec
  | 0x4 => some fun dec => return riscvRegisterTranslator .xor dec
  | 0x2 => some fun dec => return riscvRegisterTranslator .slt dec
  | 0x3 => some fun dec => return riscvRegisterTranslator .sltu dec
  | 0x1 => some fun dec => return riscvRegisterTranslator .sll dec
  | 0x5 => some riscvSrlSraTranslator
  | _ => none

/-- `riscv_arithmetic_instructions_class0_translation_entry`. -/
def riscvArithmeticInstructionsClass0TranslationEntry (dec : Decoding) :
    Result TranslatedBlock := do
  (← require (arithmeticHandlers dec.funct3)) dec

/-- `per_funct3_handlers` of `translate_multiplication_and_division.c`. -/
def mulDivHandlers (funct3 : Byte) : Option Template :=
  match funct3.toNat with
  | 0x0 => some .mul
  | 0x1 => some .mulh
  | 0x3 => some .mulhu
  | 0x2 => some .mulhsu
  | 0x4 => some .div
  | 0x5 => some .divu
  | 0x6 => some .rem
  | 0x7 => some .remu
  | _ => none

/-- `riscv_mul_div_instructions_translation_entry`. -/
def riscvMulDivInstructionsTranslationEntry (dec : Decoding) : Result TranslatedBlock := do
  return riscvRegisterTranslator (← require (mulDivHandlers dec.funct3)) dec

/-- `riscv_arithmetic_instructions_translation_entry`. -/
def riscvArithmeticInstructionsTranslationEntry (_address instruction : Word) :
    Result TranslatedBlock :=
  let dec := instructionDecodingPerType instruction .r
  if dec.funct7 &&& 0x3 = 0 then riscvArithmeticInstructionsClass0TranslationEntry dec
  else do
    check (dec.funct7 &&& 0x3 = 0x1)
    riscvMulDivInstructionsTranslationEntry dec

/-- `per_funct3_handlers` of `translate_fence.c`. -/
def fenceHandlers (funct3 : Byte) : Option Template :=
  match funct3.toNat with
  | 0x0 => some .fence
  | 0x1 => some .fenceI
  | _ => none

/-- `riscv_fence_instructions_translation_entry`. -/
def riscvFenceInstructionsTranslationEntry (address instruction : Word) :
    Result TranslatedBlock := do
  let dec := instructionDecodingPerType instruction .s
  return ⟨← require (fenceHandlers dec.funct3), [address]⟩

/-- `riscv_funct3_000_translator`. -/
def riscvFunct3000Translator (address : Word) (dec : Decoding) : Result TranslatedBlock :=
  if dec.rs2Index = 0 then return ⟨.ecall, [address]⟩ else throw .assertion

/-- `per_funct3_handlers` of `translate_privileged_instr.c`. -/
def privilegedHandlers (funct3 : Byte) : Option (Word → Decoding → Result TranslatedBlock) :=
  match funct3.toNat with
  | 0x0 => some riscvFunct3000Translator
  | _ => none

/-- `riscv_supervisor_level_instructions_translation_entry`. -/
def riscvSupervisorLevelInstructionsTranslationEntry (address instruction : Word) :
    Result TranslatedBlock := do
  let dec := instructionDecodingPerType instruction
    (if bits instruction 12 0x7 = 0 then .s else .i)
  (← require (privilegedHandlers dec.funct3)) address dec

/-- `riscv_amo_translator`. -/
def riscvAmoTranslator (dec : Decoding) : TranslatedBlock :=
  ⟨.amo, [Byte.param dec.rs1Index, Byte.param dec.rs2Index, Byte.param dec.rdIndex,
    Byte.param (dec.funct7 >>> 2)]⟩

/-- `per_funct5_handlers`. -/
def amoHandlers (funct5 : Byte) : Option (Decoding → TranslatedBlock) :=
  match funct5.toNat with
  | 0x0 | 0x1 | 0x2 | 0x3 | 0x4 | 0x8 | 0xc | 0x1c => some riscvAmoTranslator
  | _ => none

/-- `riscv_amo_instructions_translation_entry`. -/
def riscvAmoInstructionsTranslationEntry (_address instruction : Word) :
    Result TranslatedBlock := do
  let dec := instructionDecodingPerType instruction .r
  return (← require (amoHandlers (dec.funct7 >>> 2))) dec

/-- `translators`. -/
def translators (opcode : Word) : Option (Word → Word → Result TranslatedBlock) :=
  match opcode.toNat with
  | 0x37 => some riscvLuiTranslator
  | 0x17 => some riscvAuipcTranslator
  | 0x6f => some riscvJalTranslator
  | 0x67 => some riscvJalrTranslator
  | 0x13 => some riscvArithmeticImmediateInstructionsTranslationEntry
  | 0x23 => some riscvMemoryStoreInstructionsTranslationEntry
  | 0x03 => some riscvMemoryLoadInstructionsTranslationEntry
  | 0x63 => some riscvBranchInstructionsTranslationEntry
  | 0x33 => some riscvArithmeticInstructionsTranslationEntry
  | 0x0f => some riscvFenceInstructionsTranslationEntry
  | 0x73 => some riscvSupervisorLevelInstructionsTranslationEntry
  | 0x2f => some riscvAmoInstructionsTranslationEntry
  | _ => none

/-- The block that the translator of an instruction at an address commits. -/
def translate (address instruction : Word) : Result TranslatedBlock := do
  (← require (translators (bits instruction 0 0x7f))) address instruction

end Hyrule
