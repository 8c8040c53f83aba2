import Hyrule.Cpu.Refinement
import Mathlib.Algebra.Order.Ring.Abs

/-!
# Multiplication and division

The templates of `translate_multiplication_and_division.c` against the instruction
set.  The multiplications are exact for all operands (`mul_exact`).  The divisions
are those of the host, which traps where the quotient does not exist or does not
fit.  The templates of `div` and `divu` test for a zero divisor, those of `rem` and
`remu` do not, and none tests for the signed overflow.  So a block of a division
writes the result of the instruction set exactly when its operands are not ones that
its template leaves to the host (`div_exact_iff`).
-/

namespace Hyrule

open Lib Lib.X86 Riscv

/-! ## The results of the instruction set -/

namespace Riscv

/-- The least signed value. -/
def intMin : Word := 0x80000000

/-- The result of a multiplication or division. -/
def MulOp.eval : MulOp → (a b : Word) → Word
  | .mul, a, b => BitVec.ofInt 32 (a.toInt * b.toInt)
  | .mulh, a, b => BitVec.ofInt 32 (a.toInt * b.toInt / 2 ^ 32)
  | .mulhsu, a, b => BitVec.ofInt 32 (a.toInt * b.toNat / 2 ^ 32)
  | .mulhu, a, b => BitVec.ofNat 32 (a.toNat * b.toNat / 2 ^ 32)
  | .div, a, b =>
      if b = 0 then -1 else if a = intMin ∧ b = -1 then intMin
      else BitVec.ofInt 32 (a.toInt.tdiv b.toInt)
  | .divu, a, b => if b = 0 then -1 else BitVec.ofNat 32 (a.toNat / b.toNat)
  | .rem, a, b =>
      if b = 0 then a else if a = intMin ∧ b = -1 then 0
      else BitVec.ofInt 32 (a.toInt.tmod b.toInt)
  | .remu, a, b => if b = 0 then a else BitVec.ofNat 32 (a.toNat % b.toNat)

/-- The operation is a multiplication. -/
def MulOp.IsMultiplication : MulOp → Prop
  | .mul | .mulh | .mulhsu | .mulhu => True
  | .div | .divu | .rem | .remu => False

/-- The operands are ones that the template of the operation passes to a division of
the host that traps. -/
def MulOp.LeftToHost : MulOp → (a b : Word) → Prop
  | .div, a, b => a = intMin ∧ b = -1
  | .rem, a, b => b = 0 ∨ a = intMin ∧ b = -1
  | .remu, _, b => b = 0
  | _, _, _ => False

end Riscv

/-! ## Products -/

/-- The high half of a 64-bit value. -/
theorem extractLsb'_high (x : Quad) : x.extractLsb' 32 32 = BitVec.ofInt 32 (x.toInt / 2 ^ 32) := by
  apply BitVec.eq_of_toNat_eq
  have hx := x.isLt
  simp only [BitVec.extractLsb'_toNat, BitVec.toNat_ofInt, BitVec.toInt_eq_toNat_cond,
    Nat.shiftRight_eq_div_pow]
  split <;> omega

theorem extractLsb'_toNat_high (x : Quad) :
    x.extractLsb' 32 32 = BitVec.ofNat 32 (x.toNat / 2 ^ 32) := by
  apply BitVec.eq_of_toNat_eq
  rw [BitVec.extractLsb'_toNat, BitVec.toNat_ofNat, Nat.shiftRight_eq_div_pow]

theorem high_eq_setWidth (x : Quad) : x.extractLsb' 32 32 = (x >>> 32).setWidth 32 := by
  apply BitVec.eq_of_toNat_eq
  simp

/-- The low bits of a value are those of the integer it stands for. -/
theorem setWidth_eq_ofInt {n k : Nat} (x : BitVec n) (h : k ≤ n) :
    x.setWidth k = BitVec.ofInt k x.toInt :=
  (BitVec.signExtend_eq_setWidth_of_le x h).symm

theorem abs_toInt_le (a : Word) : |a.toInt| ≤ 2 ^ 31 :=
  abs_le.mpr ⟨BitVec.le_toInt a, Int.le_of_lt BitVec.toInt_lt⟩

theorem abs_toNat_lt (a : Word) : |(a.toNat : Int)| < 2 ^ 32 := by
  rw [abs_of_nonneg (Int.natCast_nonneg _)]
  exact_mod_cast a.isLt

/-- A product of a signed word and a signed or unsigned one fits into 64 bits. -/
theorem bmod_mul_of_abs {n : Nat} (hn : 64 ≤ n) {x y : Int} (hx : |x| ≤ 2 ^ 31)
    (hy : |y| < 2 ^ 32) : (x * y).bmod (2 ^ n) = x * y := by
  have habs : |x * y| ≤ 2 ^ 31 * (2 ^ 32 - 1) := by
    rw [abs_mul]
    exact Int.mul_le_mul hx (Int.le_sub_one_of_lt hy) (abs_nonneg y) (by decide)
  obtain ⟨hlow, hhigh⟩ := abs_le.mp habs
  have hpow : (2 : Nat) ^ 64 ≤ 2 ^ n := Nat.pow_le_pow_right (by decide) hn
  refine Int.bmod_eq_of_le_mul_two ?_ ?_ <;> omega

theorem toInt_mul_signExtend (a b : Word) :
    (a.signExtend 64 * b.signExtend 64).toInt = a.toInt * b.toInt := by
  rw [BitVec.toInt_mul, BitVec.toInt_signExtend_of_le (by decide),
    BitVec.toInt_signExtend_of_le (by decide)]
  exact bmod_mul_of_abs (Nat.le_refl 64) (abs_toInt_le a)
    (Int.lt_of_le_of_lt (abs_toInt_le b) (by decide))

theorem toNat_mul_setWidth (a b : Word) :
    (a.setWidth 64 * b.setWidth 64).toNat = a.toNat * b.toNat := by
  rw [BitVec.toNat_mul, BitVec.toNat_setWidth_of_le (by decide),
    BitVec.toNat_setWidth_of_le (by decide)]
  have hproduct : a.toNat * b.toNat < 2 ^ 32 * 2 ^ 32 := Nat.mul_lt_mul'' a.isLt b.isLt
  exact Nat.mod_eq_of_lt hproduct

theorem toInt_setWidth_word (b : Word) : (b.setWidth 64).toInt = b.toNat := by
  rw [BitVec.toInt_eq_toNat_of_lt, BitVec.toNat_setWidth_of_le (by decide)]
  rw [BitVec.toNat_setWidth_of_le (by decide)]
  have hb := b.isLt
  omega

/-- The low 64 bits that the one-operand `imul` leaves are the whole product of a
signed and an unsigned word. -/
theorem toInt_imulq (a b : Word) :
    (((a.signExtend 64).signExtend 128 * (b.setWidth 64).signExtend 128).setWidth 64).toInt =
      a.toInt * b.toNat := by
  have hproduct : ((a.signExtend 64).signExtend 128 * (b.setWidth 64).signExtend 128).toInt =
      a.toInt * b.toNat := by
    rw [BitVec.toInt_mul, BitVec.toInt_signExtend_of_le (by decide),
      BitVec.toInt_signExtend_of_le (by decide), BitVec.toInt_signExtend_of_le (by decide),
      toInt_setWidth_word]
    exact bmod_mul_of_abs (by decide) (abs_toInt_le a) (abs_toNat_lt b)
  rw [setWidth_eq_ofInt _ (by decide), BitVec.toInt_ofInt, hproduct]
  exact bmod_mul_of_abs (Nat.le_refl 64) (abs_toInt_le a) (abs_toNat_lt b)

/-! ## The multiplications -/

section Multiplications

variable {ω : Type} {base : Quad} {callbacks : Callbacks ω} {s : X86.State (Machine ω)}
  {rd rs1 rs2 : RegisterIndex}

/-- The parameters of an instruction on two registers. -/
def registerParams (rd rs1 rs2 : RegisterIndex) : List Word :=
  [indexParam rs1, indexParam rs2, indexParam rd]

/-- The hart behind both operands, with a result. -/
def withResult (m : Machine ω) (rd rs1 rs2 : RegisterIndex) (value : Word) : Machine ω :=
  ((m.readOperand rs1).readOperand rs2).withHart (m.hart.setRegister rd value).proceed

/-- The operands of the one-operand multiplications are in `edx` and `eax`. -/
theorem runs_mulCode {op : X86.Instr Callback} {result : Reg} {value : Word}
    (product : (a b : Word) → Quad)
    (hop : ∀ s : X86.State (Machine ω),
      step (hartBus base callbacks) (registerParams rd rs1 rs2) s op =
        .ok ((s.setPair (product (s.long .rax) (s.long .rdx))).dropFlags, .run))
    (hresult : result = .rax ∨ result = .rdx)
    (hvalue : ∀ s' : X86.State (Machine ω), (s'.setPair (product (s.mem.hart.registers rs2)
      (s.mem.hart.registers rs1))).long result = value)
    (hs : Entered base s.regs) :
    RunsTo base callbacks (registerParams rd rs1 rs2) (mulCode op result) s
      (withResult s.mem rd rs1 rs2 value) := by
  simp only [mulCode, List.append_assoc]
  refine .seq (exec_readRegister (i := rs1) rfl hs.r15 (by decide)) ?_
  refine .seq (exec_readRegister (i := rs2) rfl (by simp [hs.r15]) (by decide)) ?_
  refine .seq (by rw [exec_run, hop]; rfl) ?_
  have hdst : result ≠ .rdi := by
    rintro rfl
    cases hresult with
    | inl h => cases h
    | inr h => cases h
  refine .writeProceed ?_ rfl (by decide) hdst ?_
  · constructor <;> simp [State.setPair, hs.r15, hs.r14, hs.r12]
  · rw [← hvalue s]
    rcases hresult with rfl | rfl <;> simp [State.setPair, withResult]

theorem runs_mulhsu (hs : Entered base s.regs) :
    RunsTo base callbacks [indexParam rs1, indexParam rs2, indexParam rd] mulhsuCode s
      (((s.mem.readOperand rs1).readOperand rs2).withHart
        (s.mem.hart.setRegister rd
          (BitVec.extractLsb' 32 32 ((((s.mem.hart.registers rs1).signExtend 64).signExtend 128 *
            ((s.mem.hart.registers rs2).setWidth 64).signExtend 128).setWidth 64))).proceed) := by
  simp only [mulhsuCode, List.append_assoc]
  refine .seq (exec_readRegister (i := rs1) rfl hs.r15 (by decide)) ?_
  refine .seq rfl ?_
  refine .seq (exec_readRegister (i := rs2) rfl (by simp [hs.r15]) (by decide)) ?_
  refine .seq rfl (.writeProceed ?_ rfl (by decide) (by decide) ?_)
  · constructor <;> simp [hs.r15, hs.r14, hs.r12]
  · simp [high_eq_setWidth]

end Multiplications

/-! ## Quotients -/

/-- A value is its two halves. -/
theorem high_append_low (x : Quad) : (x >>> 32).setWidth 32 ++ x.setWidth 32 = x := by
  rw [← high_eq_setWidth]
  exact BitVec.extractLsb'_append_extractLsb'

/-- The quotient of two signed words does not fit into a word only for the least value
and `-1`. -/
theorem tdiv_overflow_iff {a b : Word} (hb : b ≠ 0) :
    (a.toInt.tdiv b.toInt < -2 ^ 31 ∨ 2 ^ 31 ≤ a.toInt.tdiv b.toInt) ↔ a = intMin ∧ b = -1 := by
  have ha := abs_le.mp (abs_toInt_le a)
  have hmin : a = intMin ↔ a.toInt = -2 ^ 31 := BitVec.toInt_inj.symm
  have hone : b = -1 ↔ b.toInt = -1 := BitVec.toInt_inj.symm
  have hb' : b.toInt ≠ 0 := fun h => hb (BitVec.eq_of_toInt_eq h)
  have ha' : a.toInt < 2 ^ 31 := BitVec.toInt_lt
  rw [hmin, hone]
  by_cases hneg : b.toInt = -1
  · rw [hneg, Int.tdiv_neg, Int.tdiv_one]
    omega
  by_cases hpos : b.toInt = 1
  · rw [hpos, Int.tdiv_one]
    omega
  -- Every other divisor at least halves the dividend.
  have hhalf : (a.toInt.tdiv b.toInt).natAbs ≤ a.toInt.natAbs / 2 := by
    rw [Int.natAbs_tdiv]
    exact Nat.div_le_div_left (by omega) (by decide)
  omega

theorem divideSigned_signExtend (a b : Word) :
    (divideSigned (a.signExtend 64) b : Except (Trap Fault) (Word × Word)) =
      if b = 0 ∨ a = intMin ∧ b = -1 then .error .divideError
      else
        .ok (BitVec.ofInt 32 (a.toInt.tdiv b.toInt), BitVec.ofInt 32 (a.toInt.tmod b.toInt)) := by
  unfold divideSigned
  rw [BitVec.toInt_signExtend_of_le (by decide)]
  by_cases hb : b = 0
  · simp [hb]
  · simp only [tdiv_overflow_iff hb]

theorem divide_zeroExtend (a b : Word) :
    (divide (0#32 ++ a) b : Except (Trap Fault) (Word × Word)) =
      if b = 0 then .error .divideError
      else .ok (BitVec.ofNat 32 (a.toNat / b.toNat), BitVec.ofNat 32 (a.toNat % b.toNat)) := by
  have ha : (0#32 ++ a : Quad).toNat = a.toNat := (BitVec.toNat_append 0#32 a).trans (by simp)
  have hfits : ¬ 2 ^ 32 ≤ a.toNat / b.toNat :=
    Nat.not_le_of_lt (Nat.lt_of_le_of_lt (Nat.div_le_self _ _) a.isLt)
  simp only [divide, ha, hfits, or_false]

/-! ## The divisions -/

section Divisions

variable {ω : Type} {base : Quad} {callbacks : Callbacks ω} {s : X86.State (Machine ω)}
  {rd rs1 rs2 : RegisterIndex} {params : List Word} {dividend : HostCode} {extend : Word → Quad}
  {op : X86.Instr Callback} {divides : Quad → Word → Except (Trap Fault) (Word × Word)}

/-- Code that extends `eax` to `edx:eax` and keeps the rest. -/
def ExtendsDividend (base : Quad) (callbacks : Callbacks ω) (params : List Word)
    (dividend : HostCode) (extend : Word → Quad) : Prop :=
  ∀ s : X86.State (Machine ω), ∃ s',
    exec (hartBus base callbacks) params dividend (s, .run) = .ok (s', .run) ∧ s'.mem = s.mem ∧
      (∀ r, r ≠ .rdx → s'.regs r = s.regs r) ∧ s'.long .rdx ++ s.long .rax = extend (s.long .rax)

/-- A division of `edx:eax` by `ebx`. -/
def DividesBy (base : Quad) (callbacks : Callbacks ω) (params : List Word)
    (op : X86.Instr Callback) (divides : Quad → Word → Except (Trap Fault) (Word × Word)) : Prop :=
  ∀ s : X86.State (Machine ω), step (hartBus base callbacks) params s op = do
    let (q, r) ← divides (s.long .rdx ++ s.long .rax) (s.long .rbx)
    return (((s.setLong .rax q).setLong .rdx r).dropFlags, .run)

theorem extends_signed :
    ExtendsDividend base callbacks params signedDividend (BitVec.signExtend 64) := by
  intro s
  refine ⟨_, rfl, rfl, fun r hr => by simp [hr], ?_⟩
  have hlow : s.long .rax = ((s.long .rax).signExtend 64).setWidth 32 := by
    rw [setWidth_eq_ofInt _ (by decide), BitVec.toInt_signExtend_of_le (by decide),
      BitVec.ofInt_toInt]
  have happend := high_append_low ((s.long .rax).signExtend 64)
  rw [← hlow] at happend
  simpa using happend

theorem extends_unsigned :
    ExtendsDividend base callbacks params unsignedDividend (0#32 ++ ·) := by
  intro s
  refine ⟨_, rfl, rfl, fun r hr => by simp [hr], ?_⟩
  simp [Alu.eval]

/-- The operands are in `edx:eax` and `ebx`. -/
structure Operands (base : Quad) (m : Machine ω) (x : Quad) (b : Word)
    (s : X86.State (Machine ω)) : Prop where
  entered : Entered base s.regs
  mem : s.mem = m
  dividend : s.long .rdx ++ s.long .rax = x
  divisor : s.long .rbx = b

/-- The reads of the operands. -/
def operandCode (dividend : HostCode) : HostCode :=
  readRegister 0 .rsi .rax ++ (dividend ++ readRegister 1 .rsi .rbx)

/-- The test of the divisor in front of a division. -/
def divisorTest (op : X86.Instr Callback) : HostCode :=
  [.movl .rbx .r8, .cmplImm 0 .r8, .jcc .ne 1, .movlImm 0xffffffff .rax, .jmp 2, .label 1, op,
    .label 2]

theorem remCode_eq (dividend : HostCode) (op : X86.Instr Callback) :
    remCode dividend op = operandCode dividend ++ ([op] ++ (writeRegister 2 .rdi .rdx ++
      (resetZeroRegister ++ proceedToNextInstruction))) := by
  simp only [remCode, operandCode, List.append_assoc]

theorem divCode_eq (dividend : HostCode) (op : X86.Instr Callback) :
    divCode dividend op = operandCode dividend ++ (divisorTest op ++ (writeRegister 2 .rdi .rax ++
      (resetZeroRegister ++ proceedToNextInstruction))) := by
  simp only [divCode, operandCode, divisorTest, List.append_assoc]

theorem exec_operandCode (hextend : ExtendsDividend base callbacks (registerParams rd rs1 rs2)
      dividend extend)
    (hs : Entered base s.regs) :
    ∃ s', exec (hartBus base callbacks) (registerParams rd rs1 rs2) (operandCode dividend)
        (s, .run) = .ok (s', .run) ∧
      Operands base ((s.mem.readOperand rs1).readOperand rs2) (extend (s.mem.hart.registers rs1))
        (s.mem.hart.registers rs2) s' := by
  have hs1 : (registerParams rd rs1 rs2)[0]? = some (indexParam rs1) := rfl
  have hs2 : (registerParams rd rs1 rs2)[1]? = some (indexParam rs2) := rfl
  rw [operandCode, exec_append, exec_readRegister hs1 hs.r15 (by decide), ok_bind, exec_append]
  obtain ⟨s₁, hexec, hmem, hregs, hextended⟩ := hextend _
  rw [hexec, ok_bind]
  have hr15 : s₁.regs .r15 = base := by
    rw [hregs _ (by decide)]
    simp [hs.r15]
  refine ⟨_, exec_readRegister hs2 hr15 (by decide), ?_⟩
  have hlong : ∀ r, r ≠ .rdx → s₁.long r = State.long _ r := fun r hr =>
    congrArg (BitVec.setWidth 32) (hregs r hr)
  refine ⟨?_, by simp [hmem], ?_, by simp [hmem]⟩
  · constructor <;> simp [hregs, hs.r15, hs.r14, hs.r12]
  · have hrax := hlong .rax (by decide)
    simp only [setLong_long, if_true] at hrax hextended
    simpa [hrax] using hextended

/-- A zero divisor skips the division, with all ones as the quotient. -/
theorem exec_divisorTest_zero (hop : ∀ n, op ≠ .label n) (h : s.long .rbx = 0) :
    exec (hartBus base callbacks) params (divisorTest op) (s, .run) =
      .ok (((s.setLong .r8 0).compare 0 0).setLong .rax (-1), .run) := by
  simp [divisorTest, step, h]
  rw [exec_label_of_ne (by decide), exec_seek hop, exec_label]
  rfl

/-- Any other one reaches it. -/
theorem exec_divisorTest (hop : DividesBy base callbacks params op divides)
    (h : s.long .rbx ≠ 0) :
    exec (hartBus base callbacks) params (divisorTest op) (s, .run) = do
      let (q, r) ← divides (s.long .rdx ++ s.long .rax) (s.long .rbx)
      return (((((s.setLong .r8 (s.long .rbx)).compare (s.long .rbx) 0).setLong .rax q).setLong
        .rdx r).dropFlags, .run) := by
  have h' : ¬ s.long .rbx = 0#32 := h
  simp [divisorTest, step, h']
  rw [exec_seek (by simp), exec_seek (by simp), exec_label, exec_run, hop]
  simp only [compare_long, setLong_long, reduceCtorEq, if_false]
  cases divides (s.long .rdx ++ s.long .rax) (s.long .rbx) with
  | error e => rfl
  | ok qr => rfl

theorem runs_remCode (hextend : ExtendsDividend base callbacks (registerParams rd rs1 rs2)
      dividend extend)
    (hop : DividesBy base callbacks (registerParams rd rs1 rs2) op divides) {q r : Word}
    (h : divides (extend (s.mem.hart.registers rs1)) (s.mem.hart.registers rs2) = .ok (q, r))
    (hs : Entered base s.regs) :
    RunsTo base callbacks (registerParams rd rs1 rs2) (remCode dividend op) s
      (withResult s.mem rd rs1 rs2 r) := by
  obtain ⟨s₁, hexec, hs₁⟩ := exec_operandCode hextend hs
  rw [remCode_eq]
  refine .seq hexec (.seq (by rw [exec_run, hop, hs₁.dividend, hs₁.divisor, h]; rfl) ?_)
  refine .writeProceed ?_ rfl (by decide) (by decide) (by simp [hs₁.mem, withResult])
  constructor <;> simp [hs₁.entered.r15, hs₁.entered.r14, hs₁.entered.r12]

/-- The block of a remainder traps where the division does. -/
theorem remCode_traps (hextend : ExtendsDividend base callbacks (registerParams rd rs1 rs2)
      dividend extend)
    (hop : DividesBy base callbacks (registerParams rd rs1 rs2) op divides) {e : Trap Fault}
    (h : divides (extend (s.mem.hart.registers rs1)) (s.mem.hart.registers rs2) = .error e)
    (hs : Entered base s.regs) :
    exec (hartBus base callbacks) (registerParams rd rs1 rs2) (remCode dividend op) (s, .run) =
      .error e := by
  obtain ⟨s₁, hexec, hs₁⟩ := exec_operandCode hextend hs
  rw [remCode_eq, exec_append, hexec, ok_bind, exec_append, exec_run, hop, hs₁.dividend,
    hs₁.divisor, h]
  rfl

theorem runs_divCode_zero (hextend : ExtendsDividend base callbacks (registerParams rd rs1 rs2)
      dividend extend)
    (hop : ∀ n, op ≠ .label n) (h : s.mem.hart.registers rs2 = 0) (hs : Entered base s.regs) :
    RunsTo base callbacks (registerParams rd rs1 rs2) (divCode dividend op) s
      (withResult s.mem rd rs1 rs2 (-1)) := by
  obtain ⟨s₁, hexec, hs₁⟩ := exec_operandCode hextend hs
  rw [divCode_eq]
  refine .seq hexec (.seq (exec_divisorTest_zero hop (hs₁.divisor.trans h)) ?_)
  refine .writeProceed ?_ rfl (by decide) (by decide) (by simp [hs₁.mem, withResult])
  constructor <;> simp [hs₁.entered.r15, hs₁.entered.r14, hs₁.entered.r12]

theorem runs_divCode (hextend : ExtendsDividend base callbacks (registerParams rd rs1 rs2)
      dividend extend)
    (hop : DividesBy base callbacks (registerParams rd rs1 rs2) op divides)
    (hzero : s.mem.hart.registers rs2 ≠ 0) {q r : Word}
    (h : divides (extend (s.mem.hart.registers rs1)) (s.mem.hart.registers rs2) = .ok (q, r))
    (hs : Entered base s.regs) :
    RunsTo base callbacks (registerParams rd rs1 rs2) (divCode dividend op) s
      (withResult s.mem rd rs1 rs2 q) := by
  obtain ⟨s₁, hexec, hs₁⟩ := exec_operandCode hextend hs
  rw [divCode_eq]
  have hnonzero : s₁.long .rbx ≠ 0 := by rwa [hs₁.divisor]
  have htest := exec_divisorTest (s := s₁) hop hnonzero
  rw [hs₁.dividend, hs₁.divisor, h] at htest
  refine .seq hexec (.seq htest ?_)
  refine .writeProceed ?_ rfl (by decide) (by decide) (by simp [hs₁.mem, withResult])
  constructor <;> simp [hs₁.entered.r15, hs₁.entered.r14, hs₁.entered.r12]

/-- Behind the test, the block of a quotient traps where the division does. -/
theorem divCode_traps (hextend : ExtendsDividend base callbacks (registerParams rd rs1 rs2)
      dividend extend)
    (hop : DividesBy base callbacks (registerParams rd rs1 rs2) op divides)
    (hzero : s.mem.hart.registers rs2 ≠ 0) {e : Trap Fault}
    (h : divides (extend (s.mem.hart.registers rs1)) (s.mem.hart.registers rs2) = .error e)
    (hs : Entered base s.regs) :
    exec (hartBus base callbacks) (registerParams rd rs1 rs2) (divCode dividend op) (s, .run) =
      .error e := by
  obtain ⟨s₁, hexec, hs₁⟩ := exec_operandCode hextend hs
  have hnonzero : s₁.long .rbx ≠ 0 := by rwa [hs₁.divisor]
  rw [divCode_eq, exec_append, hexec, ok_bind, exec_append, exec_divisorTest hop hnonzero,
    hs₁.dividend, hs₁.divisor, h]
  rfl

end Divisions

/-! ## The blocks -/

section Blocks

variable {ω : Type} {base : Quad} {callbacks : Callbacks ω} {s : X86.State (Machine ω)}
  {w address : Word} {op : MulOp} {rd rs1 rs2 : RegisterIndex}

/-- A word is translated into a block that runs to its end, writes a value to its
destination register and moves the pc on. -/
def BlockWrites (base : Quad) (callbacks : Callbacks ω) (address w : Word)
    (s : X86.State (Machine ω)) (rd : RegisterIndex) (value : Word) : Prop :=
  ∃ b s', translate address w = .ok b ∧ b.run base callbacks s = .ok (s', .run) ∧
    s'.mem.hart = { write s.mem.hart rd value with pc := s.mem.hart.pc + 4 } ∧
    s'.mem.world = s.mem.world ∧ Entered base s'.regs

theorem translate_mul (hdecode : decode w = some (.mul op rd rs1 rs2)) (address : Word) :
    translate address w = .ok ⟨op.template, registerParams rd rs1 rs2⟩ := by
  rw [translate_of_decode hdecode]
  rfl

theorem BlockWrites.of_runsTo {value : Word} (hdecode : decode w = some (.mul op rd rs1 rs2))
    (h0 : s.mem.hart.registers 0 = 0)
    (h : RunsTo base callbacks (registerParams rd rs1 rs2) op.template.code s
      (withResult s.mem rd rs1 rs2 value)) :
    BlockWrites base callbacks address w s rd value := by
  obtain ⟨s', hrun, hmem, hs'⟩ := h
  refine ⟨_, s', translate_mul hdecode address, hrun, ?_, by rw [hmem]; rfl, hs'⟩
  rw [hmem, ← proceed_setRegister h0]
  rfl

theorem BlockWrites.not_of_error {value : Word} {e : Trap Fault}
    (hdecode : decode w = some (.mul op rd rs1 rs2))
    (h : exec (hartBus base callbacks) (registerParams rd rs1 rs2) op.template.code (s, .run) =
      .error e) :
    ¬ BlockWrites base callbacks address w s rd value := by
  rintro ⟨b, s', htranslate, hrun, -⟩
  rw [translate_mul hdecode address] at htranslate
  cases htranslate
  rw [TranslatedBlock.run, h] at hrun
  cases hrun

theorem mul_runs (hop : op.IsMultiplication) (hs : Entered base s.regs) :
    RunsTo base callbacks (registerParams rd rs1 rs2) op.template.code s
      (withResult s.mem rd rs1 rs2
        (op.eval (s.mem.hart.registers rs1) (s.mem.hart.registers rs2))) := by
  generalize ha : s.mem.hart.registers rs1 = a
  generalize hb : s.mem.hart.registers rs2 = b
  cases op with
  | mul =>
    have hvalue : MulOp.mul.eval a b = (b.signExtend 64 * a.signExtend 64).setWidth 32 := by
      rw [setWidth_eq_ofInt _ (by decide), toInt_mul_signExtend, Int.mul_comm]
      rfl
    rw [hvalue, ← ha, ← hb]
    exact runs_mulCode (fun x y => x.signExtend 64 * y.signExtend 64) (fun _ => rfl) (.inl rfl)
      (fun _ => by simp [State.setPair]) hs
  | mulh =>
    have hvalue : MulOp.mulh.eval a b = (b.signExtend 64 * a.signExtend 64).extractLsb' 32 32 := by
      rw [extractLsb'_high, toInt_mul_signExtend, Int.mul_comm]
      rfl
    rw [hvalue, ← ha, ← hb]
    exact runs_mulCode (fun x y => x.signExtend 64 * y.signExtend 64) (fun _ => rfl) (.inr rfl)
      (fun _ => by simp [State.setPair]) hs
  | mulhu =>
    have hvalue : MulOp.mulhu.eval a b = (b.setWidth 64 * a.setWidth 64).extractLsb' 32 32 := by
      rw [extractLsb'_toNat_high, toNat_mul_setWidth, Nat.mul_comm]
      rfl
    rw [hvalue, ← ha, ← hb]
    exact runs_mulCode (fun x y => x.setWidth 64 * y.setWidth 64) (fun _ => rfl) (.inr rfl)
      (fun _ => by simp [State.setPair]) hs
  | mulhsu =>
    have hvalue : MulOp.mulhsu.eval a b = BitVec.extractLsb' 32 32
        (((a.signExtend 64).signExtend 128 * (b.setWidth 64).signExtend 128).setWidth 64) := by
      rw [extractLsb'_high, toInt_imulq]
      rfl
    rw [hvalue, ← ha, ← hb]
    exact runs_mulhsu hs
  | div | divu | rem | remu => cases hop

/-- The block of every multiplication writes its exact result, for all operands and
registers, and the product of `mulhsu` fits into the register it is taken from. -/
theorem mul_exact (hdecode : decode w = some (.mul op rd rs1 rs2)) (hop : op.IsMultiplication)
    (callbacks : Callbacks ω) (hs : Entered base s.regs) (h0 : s.mem.hart.registers 0 = 0) :
    BlockWrites base callbacks address w s rd
        (op.eval (s.mem.hart.registers rs1) (s.mem.hart.registers rs2)) ∧
      ∀ (t : X86.State (Machine ω)) (params : List Word) (a b : Word),
        t.regs .rax = a.signExtend 64 → t.regs .rdx = b.setWidth 64 →
          ∃ t', step (hartBus base callbacks) params t (.imulq .rdx) = .ok (t', .run) ∧
            (t'.regs .rax).toInt = a.toInt * b.toNat := by
  refine ⟨.of_runsTo hdecode h0 (mul_runs hop hs), fun t params a b ha hb => ⟨_, rfl, ?_⟩⟩
  rw [← toInt_imulq, ← ha, ← hb]
  simp

/-- What is not left to the host is exact. -/
theorem div_runs (hop : ¬ op.IsMultiplication) (hs : Entered base s.regs)
    (h : ¬ op.LeftToHost (s.mem.hart.registers rs1) (s.mem.hart.registers rs2)) :
    RunsTo base callbacks (registerParams rd rs1 rs2) op.template.code s
      (withResult s.mem rd rs1 rs2
        (op.eval (s.mem.hart.registers rs1) (s.mem.hart.registers rs2))) := by
  cases op with
  | mul | mulh | mulhsu | mulhu => exact absurd trivial hop
  | div =>
    simp only [MulOp.LeftToHost] at h
    by_cases hb : s.mem.hart.registers rs2 = 0
    · rw [MulOp.eval, if_pos hb]
      exact runs_divCode_zero extends_signed (by simp) hb hs
    · rw [MulOp.eval, if_neg hb, if_neg h]
      have hdivides := divideSigned_signExtend (s.mem.hart.registers rs1) (s.mem.hart.registers rs2)
      rw [if_neg (not_or_intro hb h)] at hdivides
      exact runs_divCode extends_signed (fun _ => rfl) hb hdivides hs
  | divu =>
    by_cases hb : s.mem.hart.registers rs2 = 0
    · rw [MulOp.eval, if_pos hb]
      exact runs_divCode_zero extends_unsigned (by simp) hb hs
    · rw [MulOp.eval, if_neg hb]
      have hdivides := divide_zeroExtend (s.mem.hart.registers rs1) (s.mem.hart.registers rs2)
      rw [if_neg hb] at hdivides
      exact runs_divCode extends_unsigned (fun _ => rfl) hb hdivides hs
  | rem =>
    simp only [MulOp.LeftToHost] at h
    obtain ⟨hb, hoverflow⟩ := not_or.mp h
    rw [MulOp.eval, if_neg hb, if_neg hoverflow]
    have hdivides := divideSigned_signExtend (s.mem.hart.registers rs1) (s.mem.hart.registers rs2)
    rw [if_neg h] at hdivides
    exact runs_remCode extends_signed (fun _ => rfl) hdivides hs
  | remu =>
    simp only [MulOp.LeftToHost] at h
    rw [MulOp.eval, if_neg h]
    have hdivides := divide_zeroExtend (s.mem.hart.registers rs1) (s.mem.hart.registers rs2)
    rw [if_neg h] at hdivides
    exact runs_remCode extends_unsigned (fun _ => rfl) hdivides hs

/-- What is left to the host traps. -/
theorem div_traps (hs : Entered base s.regs)
    (h : op.LeftToHost (s.mem.hart.registers rs1) (s.mem.hart.registers rs2)) :
    exec (hartBus base callbacks) (registerParams rd rs1 rs2) op.template.code (s, .run) =
      .error .divideError := by
  cases op with
  | mul | mulh | mulhsu | mulhu | divu => cases h
  | div =>
    have hb : s.mem.hart.registers rs2 ≠ 0 := by
      rw [h.2]
      decide
    have hdivides := divideSigned_signExtend (s.mem.hart.registers rs1) (s.mem.hart.registers rs2)
    rw [if_pos (.inr h)] at hdivides
    exact divCode_traps extends_signed (fun _ => rfl) hb hdivides hs
  | rem =>
    simp only [MulOp.LeftToHost] at h
    have hdivides := divideSigned_signExtend (s.mem.hart.registers rs1) (s.mem.hart.registers rs2)
    rw [if_pos h] at hdivides
    exact remCode_traps extends_signed (fun _ => rfl) hdivides hs
  | remu =>
    simp only [MulOp.LeftToHost] at h
    have hdivides := divide_zeroExtend (s.mem.hart.registers rs1) (s.mem.hart.registers rs2)
    rw [if_pos h] at hdivides
    exact remCode_traps extends_unsigned (fun _ => rfl) hdivides hs

/-- The block of a division writes its exact result if and only if its operands are not
ones that its template leaves to the host. -/
theorem div_exact_iff (hdecode : decode w = some (.mul op rd rs1 rs2))
    (hop : ¬ op.IsMultiplication) (callbacks : Callbacks ω) (hs : Entered base s.regs)
    (h0 : s.mem.hart.registers 0 = 0) :
    BlockWrites base callbacks address w s rd
        (op.eval (s.mem.hart.registers rs1) (s.mem.hart.registers rs2)) ↔
      ¬ op.LeftToHost (s.mem.hart.registers rs1) (s.mem.hart.registers rs2) := by
  constructor
  · intro hwrites hleft
    exact BlockWrites.not_of_error hdecode (div_traps hs hleft) hwrites
  · intro hleft
    exact .of_runsTo hdecode h0 (div_runs hop hs hleft)

end Blocks

/-- The fresh hart has `-1` and the least value in `x1` and `x2`. -/
def signedEntry : X86.State (Machine Unit) :=
  { freshEntry with
    mem := ⟨((Hart.initial 0).setRegister 1 (-1)).setRegister 2 intMin, (), []⟩ }

/-- `mulhsu x3, x1, x2` with `-1` and `2 ^ 31`. -/
theorem mul_exact_mulhsu :
    BlockWrites 0 (fun _ _ m => .ok (.leaves, m)) 0 0x0220a1b3 signedEntry 3 0xffffffff := by
  have hentered : Entered 0 signedEntry.regs := ⟨rfl, rfl, rfl⟩
  have hdecode : decode 0x0220a1b3 = some (.mul .mulhsu 3 1 2) := rfl
  exact (mul_exact hdecode trivial (fun _ _ m => .ok (.leaves, m)) hentered rfl).1

/-- `div x3, x2, x1` with the least value and `-1` is left to the host, and
`div x3, x1, x2` is not. -/
theorem div_exact_iff_div :
    ¬ BlockWrites 0 (fun _ _ m => .ok (.leaves, m)) 0 0x021141b3 signedEntry 3 intMin ∧
      BlockWrites 0 (fun _ _ m => .ok (.leaves, m)) 0 0x0220c1b3 signedEntry 3 0 := by
  have hentered : Entered 0 signedEntry.regs := ⟨rfl, rfl, rfl⟩
  have hleft : decode 0x021141b3 = some (.mul .div 3 2 1) := rfl
  have hright : decode 0x0220c1b3 = some (.mul .div 3 1 2) := rfl
  constructor
  · intro h
    have hnot := (div_exact_iff hleft (fun h => h) _ hentered rfl).mp h
    exact hnot ⟨rfl, rfl⟩
  · refine (div_exact_iff hright (fun h => h) _ hentered rfl).mpr ?_
    rintro ⟨hmin, -⟩
    exact absurd hmin (by decide)

/-- `remu x1, x0, x0` on a fresh hart stops the host with a divide error. -/
theorem remu_zero_traps :
    ∃ b, translate 0 0x020070b3 = .ok b ∧
      decode 0x020070b3 = some (.mul .remu 1 0 0) ∧
      b.run 0 (fun _ _ m => .ok (.leaves, m)) freshEntry = .error .divideError ∧
      ¬ BlockWrites 0 (fun _ _ m => .ok (.leaves, m)) 0 0x020070b3 freshEntry 1
        (MulOp.remu.eval 0 0) := by
  have hentered : Entered 0 freshEntry.regs := ⟨rfl, rfl, rfl⟩
  have hdecode : decode 0x020070b3 = some (.mul .remu 1 0 0) := rfl
  have htraps : exec (hartBus 0 fun _ _ m => .ok (.leaves, m)) (registerParams 1 0 0)
      MulOp.remu.template.code (freshEntry, .run) = .error .divideError := div_traps hentered rfl
  exact ⟨_, translate_mul hdecode 0, hdecode, htraps, BlockWrites.not_of_error hdecode htraps⟩

end Hyrule
