import Hyrule.Cpu.Blocks
import Hyrule.Cpu.Riscv
import Mathlib.Tactic.IntervalCases

/-!
# Instruction words and their blocks

The fields that the sources cut out of an instruction word are the fields of the
instruction set, and `sign_extend32` gives its immediates.  Hence a legal word
is translated into the block of the instruction it encodes, or the translator
stops the process (`translate_of_decode`).
-/

namespace Hyrule

open Lib Lib.Result Riscv

/-! ## Fields -/

theorem bits_toNat {w m : Word} {lo n : Nat} (hm : m.toNat = 2 ^ n - 1) :
    (bits w lo m).toNat = field w lo n := by
  rw [bits, field, BitVec.toNat_and, BitVec.toNat_ushiftRight, hm,
    Nat.and_two_pow_sub_one_eq_mod, BitVec.extractLsb'_toNat]

theorem byteField_toNat {w m : Word} {lo n : Nat} (hm : m.toNat = 2 ^ n - 1)
    (hn : n ≤ 8) : (byteField w lo m).toNat = field w lo n := by
  have hlt : field w lo n < 2 ^ 8 :=
    Nat.lt_of_lt_of_le (field_lt w lo n) (Nat.pow_le_pow_right (by decide) hn)
  rw [byteField, BitVec.toNat_setWidth, bits_toNat hm, Nat.mod_eq_of_lt hlt]

theorem byteField_param (w : Word) (lo : Nat) :
    Byte.param (byteField w lo 0x1f) = indexParam (register w lo) := by
  apply BitVec.eq_of_toNat_eq
  have hlt := field_lt w lo 5
  rw [Byte.param, BitVec.toNat_setWidth, byteField_toNat (n := 5) rfl (by decide)]
  simp only [indexParam, register, BitVec.toNat_ofNat]

/-! ## Immediates -/

theorem getLsbD_foldl_or (l : List Nat) (sign data : Word) (i : Nat) :
    (l.foldl (fun ret bitPosition => ret ||| sign <<< bitPosition) data).getLsbD i =
      (data.getLsbD i || l.any fun bitPosition => (sign <<< bitPosition).getLsbD i) := by
  induction l generalizing data with
  | nil => simp
  | cons b l ih => simp [ih, Bool.or_assoc]

/-- A bit of the sign, shifted to a position. -/
theorem getLsbD_sign_shiftLeft (data : Word) {signBit bitPosition i : Nat} (hi : i < 32) :
    (((data >>> signBit) &&& 1) <<< bitPosition).getLsbD i =
      (decide (bitPosition = i) && data.getLsbD signBit) := by
  rw [BitVec.getLsbD_shiftLeft, BitVec.getLsbD_and, BitVec.getLsbD_ushiftRight]
  rcases Nat.lt_trichotomy i bitPosition with hlt | rfl | hgt
  · simp [hlt, show bitPosition ≠ i by omega]
  · simp [hi]
  · have hne : i - bitPosition ≠ 0 := by omega
    simp [BitVec.getLsbD_one, hne, show bitPosition ≠ i by omega]

/-- The loop of `sign_extend32` is the extension of a number of `signBit + 1` bits. -/
theorem signExtend32_eq {data : Word} {signBit : Nat} (hbit : signBit < 32)
    (hdata : data.toNat < 2 ^ (signBit + 1)) :
    signExtend32 data signBit = (data.setWidth (signBit + 1)).signExtend 32 := by
  apply BitVec.eq_of_getLsbD_eq
  intro i hi
  have hany : ((List.range' signBit (32 - signBit)).any fun bitPosition =>
      decide (bitPosition = i) && data.getLsbD signBit) =
        (decide (signBit ≤ i) && data.getLsbD signBit) := by
    rw [Bool.eq_iff_iff]
    simp only [List.any_eq_true, List.mem_range'_1, Bool.and_eq_true, decide_eq_true_eq]
    exact ⟨fun ⟨b, hb, heq, hs⟩ => ⟨by omega, hs⟩, fun ⟨hle, hs⟩ => ⟨i, by omega, rfl, hs⟩⟩
  rw [signExtend32, getLsbD_foldl_or]
  simp only [getLsbD_sign_shiftLeft data hi, hany, BitVec.getLsbD_signExtend,
    BitVec.getLsbD_setWidth, BitVec.msb_setWidth]
  rcases Nat.lt_trichotomy i signBit with hlt | rfl | hgt
  · simp [hi, show i < signBit + 1 by omega, show ¬ signBit ≤ i by omega]
  · simp [hi]
  · have hclear : data.getLsbD i = false :=
      Nat.testBit_lt_two_pow (Nat.lt_of_lt_of_le hdata (Nat.pow_le_pow_right (by decide) hgt))
    rw [hclear]
    simp [hi, show ¬ i < signBit + 1 by omega, show signBit ≤ i by omega]

/-- `sign_extend32` of a bit string that was put together in a word. -/
theorem signExtend32_setWidth {k : Nat} (x : BitVec (k + 1)) (hk : k < 32) :
    signExtend32 (x.setWidth 32) k = x.signExtend 32 := by
  have hle : x.toNat < 2 ^ 32 :=
    Nat.lt_of_lt_of_le x.isLt (Nat.pow_le_pow_right (by decide) hk)
  have hnat : (x.setWidth 32).toNat = x.toNat := by
    rw [BitVec.toNat_setWidth, Nat.mod_eq_of_lt hle]
  rw [signExtend32_eq hk (by rw [hnat]; exact x.isLt), BitVec.setWidth_setWidth_of_le _ hk,
    BitVec.setWidth_eq]

theorem bits_eq_setWidth {w m : Word} {lo n : Nat} (hm : m.toNat = 2 ^ n - 1)
    (hn : n ≤ 32) : bits w lo m = (w.extractLsb' lo n).setWidth 32 := by
  have hle : field w lo n < 2 ^ 32 :=
    Nat.lt_of_lt_of_le (field_lt w lo n) (Nat.pow_le_pow_right (by decide) hn)
  apply BitVec.eq_of_toNat_eq
  rw [bits_toNat hm, BitVec.toNat_setWidth, ← field, Nat.mod_eq_of_lt hle]

theorem immI_eq (w : Word) : signExtend32 (instructionDecodingPerType w .i).imm 11 = immI w := by
  rw [instructionDecodingPerType, bits_eq_setWidth (n := 12) rfl (by decide),
    signExtend32_setWidth _ (by decide), immI]

theorem immS_bits (w : Word) : (instructionDecodingPerType w .s).imm =
    (w.extractLsb' 25 7 ++ w.extractLsb' 7 5).setWidth 32 := by
  apply BitVec.eq_of_getLsbD_eq
  intro i hi
  simp only [instructionDecodingPerType, bits, BitVec.getLsbD_or, BitVec.getLsbD_and,
    BitVec.getLsbD_ushiftRight, BitVec.getLsbD_shiftLeft, BitVec.getLsbD_setWidth,
    BitVec.getLsbD_append, BitVec.getLsbD_extractLsb']
  interval_cases i <;> simp

theorem immS_eq (w : Word) : signExtend32 (instructionDecodingPerType w .s).imm 11 = immS w := by
  rw [immS_bits]
  exact signExtend32_setWidth (k := 11) _ (by decide)

/-- A number of half words in bytes. -/
theorem setWidth_shiftLeft_one {n : Nat} (x : BitVec n) :
    x.setWidth 32 <<< 1 = (x ++ 0#1).setWidth 32 := by
  apply BitVec.eq_of_getLsbD_eq
  intro i hi
  rw [BitVec.getLsbD_shiftLeft, BitVec.getLsbD_setWidth, BitVec.getLsbD_setWidth,
    BitVec.getLsbD_append]
  cases i with
  | zero => simp
  | succ i => simp [hi, show i < 32 by omega]

/-- The immediate of a branch, in half words. -/
theorem immB_halves (w : Word) : (instructionDecodingPerType w .b).imm =
    (w.extractLsb' 31 1 ++ w.extractLsb' 7 1 ++ w.extractLsb' 25 6 ++
      w.extractLsb' 8 4).setWidth 32 := by
  apply BitVec.eq_of_getLsbD_eq
  intro i hi
  simp only [instructionDecodingPerType, bits, BitVec.getLsbD_or, BitVec.getLsbD_and,
    BitVec.getLsbD_ushiftRight, BitVec.getLsbD_shiftLeft, BitVec.getLsbD_setWidth,
    BitVec.getLsbD_append, BitVec.getLsbD_extractLsb']
  interval_cases i <;> simp

theorem immB_bits (w : Word) : (instructionDecodingPerType w .b).imm <<< 1 =
    (w.extractLsb' 31 1 ++ w.extractLsb' 7 1 ++ w.extractLsb' 25 6 ++ w.extractLsb' 8 4 ++
      0#1).setWidth 32 := by
  rw [immB_halves, setWidth_shiftLeft_one]

theorem immB_eq (w : Word) :
    signExtend32 ((instructionDecodingPerType w .b).imm <<< 1) 12 = immB w := by
  rw [immB_bits]
  exact signExtend32_setWidth (k := 12) _ (by decide)

/-- The immediate of a jump, in half words. -/
theorem immJ_halves (w : Word) : (instructionDecodingPerType w .uj).imm =
    (w.extractLsb' 31 1 ++ w.extractLsb' 12 8 ++ w.extractLsb' 20 1 ++
      w.extractLsb' 21 10).setWidth 32 := by
  apply BitVec.eq_of_getLsbD_eq
  intro i hi
  simp only [instructionDecodingPerType, bits, BitVec.getLsbD_or, BitVec.getLsbD_and,
    BitVec.getLsbD_ushiftRight, BitVec.getLsbD_shiftLeft, BitVec.getLsbD_setWidth,
    BitVec.getLsbD_append, BitVec.getLsbD_extractLsb']
  interval_cases i <;> simp

theorem immJ_bits (w : Word) : (instructionDecodingPerType w .uj).imm <<< 1 =
    (w.extractLsb' 31 1 ++ w.extractLsb' 12 8 ++ w.extractLsb' 20 1 ++ w.extractLsb' 21 10 ++
      0#1).setWidth 32 := by
  rw [immJ_halves, setWidth_shiftLeft_one]

theorem immJ_eq (w : Word) :
    signExtend32 ((instructionDecodingPerType w .uj).imm <<< 1) 20 = immJ w := by
  rw [immJ_bits]
  exact signExtend32_setWidth (k := 20) _ (by decide)

theorem immU_eq (w : Word) : (instructionDecodingPerType w .u).imm = (immU w).setWidth 32 :=
  bits_eq_setWidth (n := 20) rfl (by decide)

theorem setWidth_shiftLeft_upper (imm : BitVec 20) : imm.setWidth 32 <<< 12 = upper imm := by
  apply BitVec.eq_of_getLsbD_eq
  intro i hi
  simp only [upper, BitVec.getLsbD_shiftLeft, BitVec.getLsbD_setWidth, BitVec.getLsbD_append]
  interval_cases i <;> simp

/-! ## The block of an instruction -/

namespace Riscv

/-- The templates of the operations. -/
def BranchOp.template : BranchOp → Template
  | .beq => .beq
  | .bne => .bne
  | .blt => .blt
  | .bge => .bge
  | .bltu => .bltu
  | .bgeu => .bgeu

def LoadOp.template : LoadOp → Template
  | .lb => .lb
  | .lh => .lh
  | .lw => .lw
  | .lbu => .lbu
  | .lhu => .lhu

def StoreOp.template : StoreOp → Template
  | .sb => .sb
  | .sh => .sh
  | .sw => .sw

def ImmOp.template : ImmOp → Template
  | .addi => .addi
  | .slti => .stli
  | .sltiu => .stliu
  | .xori => .xori
  | .ori => .ori
  | .andi => .andi

def RegOp.template : RegOp → Template
  | .add => .add
  | .sub => .sub
  | .slt => .slt
  | .sltu => .sltu
  | .xor => .xor
  | .or => .or
  | .and => .and

def ShiftOp.template : ShiftOp → Template
  | .sll => .sll
  | .srl => .srl
  | .sra => .sra

def MulOp.template : MulOp → Template
  | .mul => .mul
  | .mulh => .mulh
  | .mulhsu => .mulhsu
  | .mulhu => .mulhu
  | .div => .div
  | .divu => .divu
  | .rem => .rem
  | .remu => .remu

/-- A shift by an immediate gets the whole immediate, which has a bit that tells the
arithmetic shift from the logical one. -/
def ShiftOp.immediateBlock (rd rs1 : RegisterIndex) (shamt : Fin 32) : ShiftOp → TranslatedBlock
  | .sll => ⟨.slli, [BitVec.ofNat 32 shamt, indexParam rs1, indexParam rd]⟩
  | .srl => ⟨.srli, [BitVec.ofNat 32 shamt, indexParam rs1, indexParam rd]⟩
  | .sra => ⟨.srai, [BitVec.ofNat 32 (0x400 + shamt), indexParam rs1, indexParam rd]⟩

/-- The `funct5` of the operations that have a slow path. -/
def AmoOp.funct5 : AmoOp → Option Word
  | .add => some 0x0
  | .swap => some 0x1
  | .xor => some 0x4
  | .or => some 0x8
  | .and => some 0xc
  | .maxu => some 0x1c
  | .min | .max | .minu => none

/-- The block of an instruction at an address, if there is a translator for it. -/
def Instruction.block (address : Word) : Instruction → Option TranslatedBlock
  | .lui rd imm => some ⟨.lui, [imm.setWidth 32, indexParam rd]⟩
  | .auipc rd imm => some ⟨.auipc, [imm.setWidth 32, indexParam rd, address]⟩
  | .jal rd offset => some ⟨.jal, [indexParam rd, address + 4, address + offset]⟩
  | .jalr rd rs1 offset => some ⟨.jalr, [indexParam rd, address + 4, indexParam rs1, offset]⟩
  | .branch op rs1 rs2 offset =>
      some ⟨op.template, [indexParam rs1, indexParam rs2, address + offset]⟩
  | .load op rd rs1 offset => some ⟨op.template, [offset, indexParam rs1, indexParam rd]⟩
  | .store op rs1 rs2 offset => some ⟨op.template, [offset, indexParam rs1, indexParam rs2]⟩
  | .opImm op rd rs1 imm => some ⟨op.template, [imm, indexParam rs1, indexParam rd]⟩
  | .shiftImm op rd rs1 shamt => some (op.immediateBlock rd rs1 shamt)
  | .opReg op rd rs1 rs2 =>
      some ⟨op.template, [indexParam rs1, indexParam rs2, indexParam rd]⟩
  | .shift op rd rs1 rs2 =>
      some ⟨op.template, [indexParam rs1, indexParam rs2, indexParam rd]⟩
  | .mul op rd rs1 rs2 => some ⟨op.template, [indexParam rs1, indexParam rs2, indexParam rd]⟩
  | .lr rd rs1 => some ⟨.amo, [indexParam rs1, indexParam 0, indexParam rd, 0x2]⟩
  | .sc rd rs1 rs2 => some ⟨.amo, [indexParam rs1, indexParam rs2, indexParam rd, 0x3]⟩
  | .amo op rd rs1 rs2 =>
      op.funct5.map fun f => ⟨.amo, [indexParam rs1, indexParam rs2, indexParam rd, f]⟩
  | .fence => some ⟨.fence, [address]⟩
  | .fenceI => some ⟨.fenceI, [address]⟩
  | .ecall => some ⟨.ecall, [address]⟩
  | .ebreak => none

end Riscv

/-! ## Legal words -/

section Translate

variable {address w : Word} {b : TranslatedBlock} {i : Instruction}

/-- The tables of the translators, by the fields of the instruction set. -/
theorem branchHandlers_eq (f : Byte) :
    branchHandlers f = (branchOp f.toNat).map BranchOp.template := by
  unfold branchHandlers branchOp
  split <;> simp_all [BranchOp.template]

theorem loadHandlers_eq (f : Byte) :
    loadHandlers f = (loadOp f.toNat).map LoadOp.template := by
  unfold loadHandlers loadOp
  split <;> simp_all [LoadOp.template]

theorem storeHandlers_eq (f : Byte) :
    storeHandlers f = (storeOp f.toNat).map StoreOp.template := by
  unfold storeHandlers storeOp
  split <;> simp_all [StoreOp.template]

theorem mulDivHandlers_eq (f : Byte) :
    mulDivHandlers f = (mulOp f.toNat).map MulOp.template := by
  unfold mulDivHandlers mulOp
  split <;> simp_all [MulOp.template]

theorem opcode_eq (w : Word) : (bits w 0 0x7f).toNat = opcode w := bits_toNat (n := 7) rfl

theorem funct3_eq (w : Word) : (byteField w 12 7).toNat = funct3 w :=
  byteField_toNat (n := 3) rfl (by decide)

theorem funct7_eq (w : Word) : (byteField w 25 0x7f).toNat = funct7 w :=
  byteField_toNat (n := 7) rfl (by decide)

/-- The opcode chooses the translator. -/
theorem translate_eq {n : Nat} {translator : Word → Word → Result TranslatedBlock}
    (h : opcode w = n) (ht : translators (BitVec.ofNat 32 n) = some translator) :
    translate address w = translator address w := by
  have hbits : bits w 0 0x7f = BitVec.ofNat 32 n := by
    rw [← h, ← opcode_eq, BitVec.ofNat_toNat, BitVec.setWidth_eq]
  rw [translate, hbits, ht]
  rfl

theorem translate_lui (h : opcode w = 0x37) :
    translate address w = .ok ⟨.lui, [(immU w).setWidth 32, indexParam (rd w)]⟩ := by
  rw [translate_eq h rfl, riscvLuiTranslator, immU_eq]
  simp only [instructionDecodingPerType, byteField_param]
  rfl

theorem translate_auipc (h : opcode w = 0x17) :
    translate address w = .ok ⟨.auipc, [(immU w).setWidth 32, indexParam (rd w), address]⟩ := by
  rw [translate_eq h rfl, riscvAuipcTranslator, immU_eq]
  simp only [instructionDecodingPerType, byteField_param]
  rfl

theorem translate_jal (h : opcode w = 0x6f) :
    translate address w = .ok ⟨.jal, [indexParam (rd w), address + 4, address + immJ w]⟩ := by
  rw [translate_eq h rfl, riscvJalTranslator, immJ_eq]
  simp only [instructionDecodingPerType, byteField_param]
  rfl

theorem translate_jalr (h : opcode w = 0x67) : translate address w =
    .ok ⟨.jalr, [indexParam (rd w), address + 4, indexParam (rs1 w), immI w]⟩ := by
  rw [translate_eq h rfl, riscvJalrTranslator, immI_eq]
  simp only [instructionDecodingPerType, byteField_param]
  rfl

theorem translate_branch (h : opcode w = 0x63) : translate address w = do
    let op ← require (branchOp (funct3 w))
    return ⟨op.template, [indexParam (rs1 w), indexParam (rs2 w), address + immB w]⟩ := by
  rw [translate_eq h rfl, riscvBranchInstructionsTranslationEntry]
  simp only [branchHandlers_eq, riscvBranchTranslator, immB_eq]
  simp only [instructionDecodingPerType, byteField_param, funct3_eq]
  cases branchOp (funct3 w) <;> rfl

theorem translate_load (h : opcode w = 0x03) : translate address w = do
    let op ← require (loadOp (funct3 w))
    return ⟨op.template, [immI w, indexParam (rs1 w), indexParam (rd w)]⟩ := by
  rw [translate_eq h rfl,
    riscvMemoryLoadInstructionsTranslationEntry]
  simp only [loadHandlers_eq, riscvImmediateTranslator, immI_eq]
  simp only [instructionDecodingPerType, byteField_param, funct3_eq]
  cases loadOp (funct3 w) <;> rfl

theorem translate_store (h : opcode w = 0x23) : translate address w = do
    let op ← require (storeOp (funct3 w))
    return ⟨op.template, [immS w, indexParam (rs1 w), indexParam (rs2 w)]⟩ := by
  rw [translate_eq h rfl,
    riscvMemoryStoreInstructionsTranslationEntry]
  simp only [storeHandlers_eq, riscvStoreTranslator, immS_eq]
  simp only [instructionDecodingPerType, byteField_param, funct3_eq]
  cases storeOp (funct3 w) <;> rfl

theorem translate_miscMem (h : opcode w = 0x0f) : translate address w = do
    return ⟨← require (fenceHandlers (byteField w 12 7)), [address]⟩ := by
  rw [translate_eq h rfl]
  rfl

/-- The fields that `lr.w` or another atomic operation has are not looked at. -/
theorem translate_amo (h : opcode w = 0x2f) : translate address w =
    if funct5 w ∈ [0x0, 0x1, 0x2, 0x3, 0x4, 0x8, 0xc, 0x1c] then
      .ok ⟨.amo, [indexParam (rs1 w), indexParam (rs2 w), indexParam (rd w),
        BitVec.ofNat 32 (funct5 w)]⟩
    else .error .assertion := by
  have hshift : (byteField w 25 0x7f >>> 2).toNat = funct5 w := by
    rw [BitVec.toNat_ushiftRight, funct7_eq, funct7, funct5, field, field,
      BitVec.extractLsb'_toNat, BitVec.extractLsb'_toNat, Nat.shiftRight_eq_div_pow,
      Nat.shiftRight_eq_div_pow, Nat.shiftRight_eq_div_pow]
    omega
  have hparam : Byte.param (byteField w 25 0x7f >>> 2) = BitVec.ofNat 32 (funct5 w) := by
    apply BitVec.eq_of_toNat_eq
    rw [Byte.param, BitVec.toNat_setWidth, BitVec.toNat_ofNat, hshift]
  have hhandlers : amoHandlers (byteField w 25 0x7f >>> 2) =
      if funct5 w ∈ [0x0, 0x1, 0x2, 0x3, 0x4, 0x8, 0xc, 0x1c] then some riscvAmoTranslator
      else none := by
    rw [amoHandlers, hshift]
    split <;> simp_all
  rw [translate_eq h rfl, riscvAmoInstructionsTranslationEntry]
  simp only [instructionDecodingPerType, hhandlers]
  by_cases hmem : funct5 w ∈ [0x0, 0x1, 0x2, 0x3, 0x4, 0x8, 0xc, 0x1c]
  · rw [if_pos hmem, if_pos hmem, ← hparam]
    simp only [rd, rs1, rs2, ← byteField_param]
    rfl
  · rw [if_neg hmem, if_neg hmem]
    rfl

/-- The immediate of a shift is the amount and `funct7`. -/
theorem field_shift (w : Word) : field w 20 12 = field w 20 5 + 32 * funct7 w := by
  simp only [funct7, field, BitVec.extractLsb'_toNat, Nat.shiftRight_eq_div_pow]
  omega

theorem bits_shift (w : Word) :
    bits w 20 0xfff = BitVec.ofNat 32 (field w 20 5 + 32 * funct7 w) := by
  rw [← field_shift, ← bits_toNat (m := 0xfff) rfl, BitVec.ofNat_toNat, BitVec.setWidth_eq]

/-- The bit of the immediate that `riscv_right_shift_translator` tests. -/
theorem bits_and_400 (w : Word) :
    bits w 20 0xfff &&& 0x400 = 0 ↔ funct7 w / 32 % 2 = 0 := by
  have hlt := field_lt w 20 5
  have hbit : (bits w 20 0xfff).getLsbD 10 =
      decide ((field w 20 5 + 32 * funct7 w) / 2 ^ 10 % 2 = 1) := by
    rw [BitVec.getLsbD, bits_toNat (n := 12) rfl, field_shift, Nat.testBit_eq_decide_div_mod_eq]
  rw [show (0x400 : Word) = BitVec.twoPow 32 10 from rfl, BitVec.and_twoPow, hbit]
  by_cases h : (field w 20 5 + 32 * funct7 w) / 2 ^ 10 % 2 = 1
  · simp only [h, decide_true, if_true]
    exact iff_of_false (by decide) (by omega)
  · simp only [h, decide_false, Bool.false_eq_true, if_false]
    exact iff_of_true rfl (by omega)

/-- The operations on an immediate.  A shift is told by `funct3` and one bit of
`funct7`. -/
theorem translate_opImm (h : opcode w = 0x13) : translate address w =
    let imm := BitVec.ofNat 32 (field w 20 5 + 32 * funct7 w)
    match immOp (funct3 w) with
    | some op => .ok ⟨op.template, [immI w, indexParam (rs1 w), indexParam (rd w)]⟩
    | none =>
        if funct3 w = 1 then .ok ⟨.slli, [imm, indexParam (rs1 w), indexParam (rd w)]⟩
        else if funct7 w / 32 % 2 = 0 then
          .ok ⟨.srli, [imm, indexParam (rs1 w), indexParam (rd w)]⟩
        else .ok ⟨.srai, [imm, indexParam (rs1 w), indexParam (rd w)]⟩ := by
  have hfunct3 : (instructionDecodingPerType w .i).funct3.toNat = funct3 w := funct3_eq w
  have himm : (instructionDecodingPerType w .i).imm = _ := bits_shift w
  have hrs1 : Byte.param (instructionDecodingPerType w .i).rs1Index = _ := byteField_param w 15
  have hrd : Byte.param (instructionDecodingPerType w .i).rdIndex = _ := byteField_param w 7
  have hsign := immI_eq w
  have hbit : (instructionDecodingPerType w .i).imm &&& 0x400 = 0 ↔ _ := bits_and_400 w
  have hlt : funct3 w < 8 := field_lt w 12 3
  rw [translate_eq h rfl, riscvArithmeticImmediateInstructionsTranslationEntry]
  generalize instructionDecodingPerType w .i = dec at *
  rw [himm] at hsign hbit
  simp only [immediateHandlers, hfunct3]
  interval_cases funct3 w
  all_goals
    simp only [require, immOp, ok_bind, riscvImmediateTranslator, riscvShiftImmediateTranslator,
      riscvRightShiftTranslator, hbit, hsign, himm, hrs1, hrd, rd, rs1]
  all_goals first | rfl | skip
  split <;> rfl

/-- The template that the translators of `OP` choose.  Only the low bits of `funct7`
tell the extensions apart, and most operations do not look at the rest. -/
def opTemplate (funct3 funct7 : Nat) : Option Template :=
  if funct7 % 4 = 0 then
    match funct3 with
    | 0 => if funct7 = 0x20 then some .sub else if funct7 = 0 then some .add else none
    | 1 => some .sll
    | 2 => some .slt
    | 3 => some .sltu
    | 4 => some .xor
    | 5 => if funct7 = 0x20 then some .sra else if funct7 = 0 then some .srl else none
    | 6 => some .or
    | 7 => some .and
    | _ => none
  else if funct7 % 4 = 1 then (mulOp funct3).map MulOp.template
  else none

theorem translate_op (h : opcode w = 0x33) : translate address w = do
    return ⟨← require (opTemplate (funct3 w) (funct7 w)),
      [indexParam (rs1 w), indexParam (rs2 w), indexParam (rd w)]⟩ := by
  have hfunct3 : (instructionDecodingPerType w .r).funct3.toNat = funct3 w := funct3_eq w
  have hfunct7 : (instructionDecodingPerType w .r).funct7.toNat = funct7 w := funct7_eq w
  have hrs1 : Byte.param (instructionDecodingPerType w .r).rs1Index = _ := byteField_param w 15
  have hrs2 : Byte.param (instructionDecodingPerType w .r).rs2Index = _ := byteField_param w 20
  have hrd : Byte.param (instructionDecodingPerType w .r).rdIndex = _ := byteField_param w 7
  have hlt : funct3 w < 8 := field_lt w 12 3
  rw [translate_eq h rfl, riscvArithmeticInstructionsTranslationEntry]
  generalize instructionDecodingPerType w .r = dec at *
  have hlow (n : Byte) (hn : n.toNat < 4) : dec.funct7 &&& 0x3 = n ↔ funct7 w % 4 = n.toNat := by
    rw [← BitVec.toNat_inj, BitVec.toNat_and, hfunct7,
      show (0x3 : Byte).toNat = 2 ^ 2 - 1 from rfl, Nat.and_two_pow_sub_one_eq_mod]
  have heq (n : Byte) : dec.funct7 = n ↔ funct7 w = n.toNat := by
    rw [← BitVec.toNat_inj, hfunct7]
  have hblock (template : Template) : riscvRegisterTranslator template dec =
      ⟨template, [indexParam (rs1 w), indexParam (rs2 w), indexParam (rd w)]⟩ := by
    rw [riscvRegisterTranslator, hrs1, hrs2, hrd, rs1, rs2, rd]
  have h0 : dec.funct7 &&& 0x3 = 0 ↔ funct7 w % 4 = 0 := hlow 0 (by decide)
  have h1 : dec.funct7 &&& 0x3 = 1 ↔ funct7 w % 4 = 1 := hlow 1 (by decide)
  have h20 : dec.funct7 = 0x20 ↔ funct7 w = 0x20 := heq 0x20
  have h00 : dec.funct7 = 0 ↔ funct7 w = 0 := heq 0
  simp only [h0, h1, riscvArithmeticInstructionsClass0TranslationEntry,
    riscvMulDivInstructionsTranslationEntry, arithmeticHandlers, mulDivHandlers_eq, hfunct3,
    opTemplate, check]
  split
  · interval_cases funct3 w
    all_goals simp only [require, ok_bind, riscvAddSubTranslator, riscvSrlSraTranslator, hblock,
      h20, h00, check]
    all_goals first | rfl | (split; rfl; split <;> rfl)
  · split
    · cases mulOp (funct3 w) with
      | none => rfl
      | some op => simp [require, hblock]
    · rfl

theorem translate_system (h : opcode w = 0x73) : translate address w =
    if funct3 w = 0 ∧ rs2 w = 0 then .ok ⟨.ecall, [address]⟩ else .error .assertion := by
  have hbits : bits w 12 0x7 = 0 ↔ funct3 w = 0 := by
    rw [← BitVec.toNat_inj, bits_toNat (n := 3) rfl]
    rfl
  have hrs2 : byteField w 20 0x1f = 0 ↔ rs2 w = 0 := by
    rw [← BitVec.toNat_inj, byteField_toNat (n := 5) rfl (by decide), ← Fin.val_inj]
    rfl
  rw [translate_eq h rfl, riscvSupervisorLevelInstructionsTranslationEntry]
  by_cases h0 : funct3 w = 0
  · have hdec : privilegedHandlers (byteField w 12 7) = some riscvFunct3000Translator := by
      simp only [privilegedHandlers, funct3_eq, h0]
    simp only [hbits, h0, if_true, instructionDecodingPerType, hdec, require, ok_bind,
      riscvFunct3000Translator, hrs2, true_and]
    rfl
  · have hdec : privilegedHandlers (byteField w 12 7) = none := by
      rw [privilegedHandlers, funct3_eq]
      split
      · contradiction
      · rfl
    simp only [hbits, h0, if_false, instructionDecodingPerType, hdec, require, false_and]
    rfl

/-- The words of `OP-IMM` that encode an instruction are translated into its block. -/
theorem translate_of_decodeOpImm (h : opcode w = 0x13) (hi : decodeOpImm w = some i) :
    translate address w = require (i.block address) := by
  rw [translate_opImm h]
  unfold decodeOpImm at hi
  cases hop : immOp (funct3 w) with
  | some op =>
    rw [hop] at hi
    cases hi
    rfl
  | none =>
    rw [hop] at hi
    obtain ⟨op, hshift, rfl⟩ := Option.map_eq_some_iff.mp hi
    unfold shiftOp at hshift
    split at hshift
    all_goals cases hshift
    all_goals simp_all [Instruction.block, ShiftOp.immediateBlock, require, shamt, Nat.add_comm]

theorem translate_of_decodeOp (h : opcode w = 0x33) (hi : decodeOp w = some i) :
    translate address w = require (i.block address) := by
  rw [translate_op h]
  unfold decodeOp at hi
  split at hi
  next h1 =>
    obtain ⟨op, hop, rfl⟩ := Option.map_eq_some_iff.mp hi
    simp [opTemplate, h1, hop, require, Instruction.block]
  next h1 =>
    cases hop : regOp (funct3 w) (funct7 w) with
    | some op =>
      rw [hop] at hi
      cases hi
      unfold regOp at hop
      split at hop
      all_goals cases hop
      all_goals simp_all [opTemplate, Instruction.block, RegOp.template, require]
    | none =>
      rw [hop] at hi
      obtain ⟨op, hshift, rfl⟩ := Option.map_eq_some_iff.mp hi
      unfold shiftOp at hshift
      split at hshift
      all_goals cases hshift
      all_goals simp_all [opTemplate, Instruction.block, ShiftOp.template, require]

theorem translate_of_decodeAmo (h : opcode w = 0x2f) (hi : decodeAmo w = some i) :
    translate address w = require (i.block address) := by
  rw [translate_amo h]
  unfold decodeAmo at hi
  split at hi
  next =>
    split at hi
    next h5 =>
      split at hi
      next h2 =>
        cases hi
        simp [h5, h2, Instruction.block, require]
      next => cases hi
    next h5 =>
      cases hi
      simp [h5, Instruction.block, require]
    next =>
      obtain ⟨op, hop, rfl⟩ := Option.map_eq_some_iff.mp hi
      unfold amoOp at hop
      split at hop
      all_goals cases hop
      all_goals simp_all [Instruction.block, AmoOp.funct5, require]
  next => cases hi

/-- A legal word is translated into the block of the instruction that it encodes.  If
there is no such block the translator stops the process. -/
theorem translate_of_decode (hi : decode w = some i) :
    translate address w = require (i.block address) := by
  unfold decode at hi
  split at hi
  next h => cases hi; exact translate_lui h
  next h => cases hi; exact translate_auipc h
  next h => cases hi; exact translate_jal h
  next h =>
    split at hi
    next => cases hi; exact translate_jalr h
    next => cases hi
  next h =>
    obtain ⟨op, hop, rfl⟩ := Option.map_eq_some_iff.mp hi
    rw [translate_branch h, hop]
    rfl
  next h =>
    obtain ⟨op, hop, rfl⟩ := Option.map_eq_some_iff.mp hi
    rw [translate_load h, hop]
    rfl
  next h =>
    obtain ⟨op, hop, rfl⟩ := Option.map_eq_some_iff.mp hi
    rw [translate_store h, hop]
    rfl
  next h => exact translate_of_decodeOpImm h hi
  next h => exact translate_of_decodeOp h hi
  next h =>
    rw [translate_miscMem h, fenceHandlers, funct3_eq]
    unfold decodeMiscMem at hi
    split at hi
    all_goals cases hi
    all_goals simp_all [Instruction.block, require]
  next h =>
    rw [translate_system h]
    unfold decodeSystem at hi
    split at hi
    next hw => subst hw; cases hi; rfl
    next =>
      split at hi
      next hw => subst hw; cases hi; rfl
      next => cases hi
  next h => exact translate_of_decodeAmo h hi
  next => cases hi

end Translate

end Hyrule
