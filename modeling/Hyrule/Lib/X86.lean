import Mathlib.Data.BitVec
import Mathlib.Data.Set.Function
import Mathlib.Tactic.Common

/-!
# Blocks of x86 code

The part of the 64-bit x86 instruction set that hand-written blocks of integer
code use: moves, integer arithmetic on 32-bit registers, comparisons, forward
jumps inside the block, accesses to memory through a register, and calls.  The
operands stand in the order of the AT&T syntax, the source first.  Behind the
code of a block stands a pool of 32-bit constants, its parameters.

Memory and the called functions are behind a `Bus` over an arbitrary state.  A
comparison sets the flags.  The other arithmetic leaves them undetermined, and a
block that tests undetermined flags is stuck.

A block is run instruction by instruction (`exec`).  A jump skips forward to
its label, and a call that does not return leaves the block.  Running two blocks
one after the other is running their concatenation (`exec_append`).
-/

namespace Lib.X86

/-! ## Registers and flags -/

/-- The general purpose registers. -/
inductive Reg where
  | rax | rbx | rcx | rdx | rsi | rdi | r8 | r12 | r13 | r14 | r15
deriving DecidableEq

/-- A 64-bit value. -/
abbrev Quad := BitVec 64

/-- A 32-bit value. -/
abbrev Long := BitVec 32

/-- The status flags. -/
structure Flags where
  zf : Bool
  sf : Bool
  of : Bool
  cf : Bool

/-- The flags of the subtraction `a - b`. -/
def Flags.compare (a b : Long) : Flags where
  zf := a - b == 0
  sf := (a - b).msb
  of := a.msb != b.msb && (a - b).msb != a.msb
  cf := decide (a.toNat < b.toNat)

/-- The condition codes of a conditional instruction. -/
inductive Cond where
  | e | ne | l | ge | b | ae

/-- The flags meet a condition. -/
def Cond.holds : Cond → Flags → Bool
  | .e, f => f.zf
  | .ne, f => !f.zf
  | .l, f => f.sf != f.of
  | .ge, f => f.sf == f.of
  | .b, f => f.cf
  | .ae, f => !f.cf

/-! ## Instructions -/

/-- The two-operand arithmetic. -/
inductive Alu where
  | add | sub | and | or | xor

/-- The destination after `op src, dst`. -/
def Alu.eval : Alu → (src dst : Long) → Long
  | .add, src, dst => dst + src
  | .sub, src, dst => dst - src
  | .and, src, dst => dst &&& src
  | .or, src, dst => dst ||| src
  | .xor, src, dst => dst ^^^ src

/-- The shifts. -/
inductive Shift where
  | shl | shr | sar

/-- The destination after a shift by fewer than 32 bits. -/
def Shift.eval : Shift → (count : Nat) → Long → Long
  | .shl, count, dst => dst <<< count
  | .shr, count, dst => dst >>> count
  | .sar, count, dst => dst.sshiftRight count

/-- The instructions, with the functions of type `φ` to call. -/
inductive Instr (φ : Type) where
  | movlParam (i : Nat) (dst : Reg)
  | movlImm (value : Long) (dst : Reg)
  | movl (src dst : Reg)
  | movq (src dst : Reg)
  | load (addr dst : Reg)
  | store (src addr : Reg)
  | storeImm (value : Long) (addr : Reg)
  | addlMem (value : Long) (addr : Reg)
  | addq (src dst : Reg)
  | alu (op : Alu) (src dst : Reg)
  | aluImm (op : Alu) (value : Long) (dst : Reg)
  | shift (op : Shift) (count : Nat) (dst : Reg)
  | shiftCl (op : Shift) (dst : Reg)
  | shrq (count : Nat) (dst : Reg)
  | btr (bit : Nat) (dst : Reg)
  | cmpl (src dst : Reg)
  | cmplImm (value : Long) (dst : Reg)
  | cmplParam (i : Nat) (dst : Reg)
  | set (c : Cond) (dst : Reg)
  | movzbl (src dst : Reg)
  | movsbl (src dst : Reg)
  | movzwl (src dst : Reg)
  | movswl (src dst : Reg)
  | movsxd (src dst : Reg)
  | mull (src : Reg)
  | imull (src : Reg)
  | imulq (src : Reg)
  | divl (src : Reg)
  | idivl (src : Reg)
  | jcc (c : Cond) (label : Nat)
  | jmp (label : Nat)
  | label (n : Nat)
  /-- Save some registers on the stack, call, and restore them. -/
  | call (f : φ) (saved : List Reg)

/-! ## Running code -/

/-- The reasons why code does not run on. -/
inductive Trap (ε : Type) where
  /-- A value that the code does not determine was used. -/
  | undetermined
  /-- The quotient of a division does not exist or does not fit. -/
  | divideError
  /-- An access or a called function stopped the process. -/
  | stopped (e : ε)

/-- What a called function does in the end: it returns with the registers as it
left them, or it gives up the block that called it. -/
inductive Outcome where
  | returns (regs : Reg → Quad)
  | leaves

/-- The memory and the functions that code reaches. -/
structure Bus (ε μ φ : Type) where
  load : Quad → μ → Except ε (Long × μ)
  store : Quad → Long → μ → Except ε μ
  call : φ → (Reg → Quad) → μ → Except ε (Outcome × μ)

/-- The state of the processor and the memory. -/
structure State (μ : Type) where
  regs : Reg → Quad
  flags : Option Flags
  mem : μ

/-- Where control is inside a block. -/
inductive Control where
  | run
  | seek (label : Nat)
  | left
deriving DecidableEq

variable {ε μ φ : Type}

/-- The low half of a register. -/
def State.long (s : State μ) (r : Reg) : Long := (s.regs r).setWidth 32

/-- A write of a whole register. -/
def State.setQuad (s : State μ) (r : Reg) (value : Quad) : State μ :=
  { s with regs := Function.update s.regs r value }

/-- A write of the low half of a register, which clears the high half. -/
def State.setLong (s : State μ) (r : Reg) (value : Long) : State μ :=
  s.setQuad r (value.setWidth 64)

/-- A write of the low byte of a register, which keeps the rest. -/
def State.setByte (s : State μ) (r : Reg) (value : BitVec 8) : State μ :=
  s.setQuad r ((s.regs r).extractLsb' 8 56 ++ value)

/-- A change of the memory. -/
def State.withMem (s : State μ) (mem : μ) : State μ := { s with mem }

/-- The flags are not determined any more. -/
def State.dropFlags (s : State μ) : State μ := { s with flags := none }

/-- The flags of a comparison. -/
def State.compare (s : State μ) (a b : Long) : State μ :=
  { s with flags := some (.compare a b) }

/-- What the bus stopped with is why the code does not run on. -/
def lift {α : Type} : Except ε α → Except (Trap ε) α
  | .ok a => .ok a
  | .error e => .error (.stopped e)

/-- A parameter of the block. -/
def param (params : List Long) (i : Nat) : Except (Trap ε) Long :=
  match params[i]? with
  | some value => .ok value
  | none => .error .undetermined

/-- The flags, if they are determined. -/
def State.test (s : State μ) (c : Cond) : Except (Trap ε) Bool :=
  match s.flags with
  | some flags => .ok (c.holds flags)
  | none => .error .undetermined

/-- `div`: the quotient and the remainder of `EDX:EAX`. -/
def divide (dividend : Quad) (divisor : Long) : Except (Trap ε) (Long × Long) :=
  let q := dividend.toNat / divisor.toNat
  if divisor = 0 ∨ 2 ^ 32 ≤ q then .error .divideError
  else .ok (BitVec.ofNat 32 q, BitVec.ofNat 32 (dividend.toNat % divisor.toNat))

/-- `idiv`: the truncated quotient and the remainder of `EDX:EAX`. -/
def divideSigned (dividend : Quad) (divisor : Long) : Except (Trap ε) (Long × Long) :=
  let q := dividend.toInt.tdiv divisor.toInt
  if divisor = 0 ∨ q < -2 ^ 31 ∨ 2 ^ 31 ≤ q then .error .divideError
  else .ok (BitVec.ofInt 32 q, BitVec.ofInt 32 (dividend.toInt.tmod divisor.toInt))

/-- `EDX:EAX` holds a 64-bit value. -/
def State.setPair (s : State μ) (value : Quad) : State μ :=
  (s.setLong .rax (value.setWidth 32)).setLong .rdx (value.extractLsb' 32 32)

/-- One instruction, and where control is behind it. -/
def step (bus : Bus ε μ φ) (params : List Long) (s : State μ) :
    Instr φ → Except (Trap ε) (State μ × Control)
  | .movlParam i dst => do return (s.setLong dst (← param params i), .run)
  | .movlImm value dst => return (s.setLong dst value, .run)
  | .movl src dst => return (s.setLong dst (s.long src), .run)
  | .movq src dst => return (s.setQuad dst (s.regs src), .run)
  | .load addr dst => do
      let (value, mem) ← lift (bus.load (s.regs addr) s.mem)
      return ((s.withMem mem).setLong dst value, .run)
  | .store src addr => do
      return (s.withMem (← lift (bus.store (s.regs addr) (s.long src) s.mem)), .run)
  | .storeImm value addr => do
      return (s.withMem (← lift (bus.store (s.regs addr) value s.mem)), .run)
  | .addlMem value addr => do
      let (old, mem) ← lift (bus.load (s.regs addr) s.mem)
      let mem ← lift (bus.store (s.regs addr) (old + value) mem)
      return ((s.withMem mem).dropFlags, .run)
  | .addq src dst => return ((s.setQuad dst (s.regs dst + s.regs src)).dropFlags, .run)
  | .alu op src dst =>
      return ((s.setLong dst (op.eval (s.long src) (s.long dst))).dropFlags, .run)
  | .aluImm op value dst => return ((s.setLong dst (op.eval value (s.long dst))).dropFlags, .run)
  | .shift op count dst => return ((s.setLong dst (op.eval count (s.long dst))).dropFlags, .run)
  | .shiftCl op dst =>
      -- The processor masks the count to 5 bits.
      let count := (s.long .rcx).toNat % 32
      return ((s.setLong dst (op.eval count (s.long dst))).dropFlags, .run)
  | .shrq count dst => return ((s.setQuad dst (s.regs dst >>> count)).dropFlags, .run)
  | .btr bit dst =>
      return ((s.setLong dst (s.long dst &&& ~~~(1#32 <<< bit))).dropFlags, .run)
  | .cmpl src dst => return (s.compare (s.long dst) (s.long src), .run)
  | .cmplImm value dst => return (s.compare (s.long dst) value, .run)
  | .cmplParam i dst => do return (s.compare (s.long dst) (← param params i), .run)
  | .set c dst => do return (s.setByte dst (if ← s.test c then 1 else 0), .run)
  | .movzbl src dst => return (s.setLong dst (((s.regs src).setWidth 8).setWidth 32), .run)
  | .movsbl src dst => return (s.setLong dst (((s.regs src).setWidth 8).signExtend 32), .run)
  | .movzwl src dst => return (s.setLong dst (((s.regs src).setWidth 16).setWidth 32), .run)
  | .movswl src dst => return (s.setLong dst (((s.regs src).setWidth 16).signExtend 32), .run)
  | .movsxd src dst => return (s.setQuad dst ((s.long src).signExtend 64), .run)
  | .mull src =>
      let product : Quad := (s.long .rax).setWidth 64 * (s.long src).setWidth 64
      return ((s.setPair product).dropFlags, .run)
  | .imull src =>
      let product : Quad := (s.long .rax).signExtend 64 * (s.long src).signExtend 64
      return ((s.setPair product).dropFlags, .run)
  | .imulq src =>
      let product : BitVec 128 := (s.regs .rax).signExtend 128 * (s.regs src).signExtend 128
      return (((s.setQuad .rax (product.setWidth 64)).setQuad .rdx
        (product.extractLsb' 64 64)).dropFlags, .run)
  | .divl src => do
      let (q, r) ← divide (s.long .rdx ++ s.long .rax) (s.long src)
      return (((s.setLong .rax q).setLong .rdx r).dropFlags, .run)
  | .idivl src => do
      let (q, r) ← divideSigned (s.long .rdx ++ s.long .rax) (s.long src)
      return (((s.setLong .rax q).setLong .rdx r).dropFlags, .run)
  | .jcc c label => do return (s, if ← s.test c then .seek label else .run)
  | .jmp label => return (s, .seek label)
  | .label _ => return (s, .run)
  | .call f saved => do
      match ← lift (bus.call f s.regs s.mem) with
      | (.returns regs, mem) =>
          return ({ regs := fun r => if r ∈ saved then s.regs r else regs r, flags := none, mem },
            .run)
      | (.leaves, mem) => return (s.withMem mem, .left)

/-- One instruction of a block: it runs, or a jump skips it. -/
def advance (bus : Bus ε μ φ) (params : List Long) (sc : State μ × Control) (i : Instr φ) :
    Except (Trap ε) (State μ × Control) :=
  match sc.2 with
  | .run => step bus params sc.1 i
  | .left => return sc
  | .seek l =>
      match i with
      | .label n => return (sc.1, if n = l then .run else .seek l)
      | _ => return sc

/-- A block of code. -/
def exec (bus : Bus ε μ φ) (params : List Long) (code : List (Instr φ)) (sc : State μ × Control) :
    Except (Trap ε) (State μ × Control) :=
  code.foldlM (advance bus params) sc

section Exec

variable {bus : Bus ε μ φ} {params : List Long} {s : State μ}

@[simp] theorem ok_bind {α β : Type} (a : α) (f : α → Except (Trap ε) β) :
    (Except.ok a >>= f) = f a := rfl

@[simp] theorem pure_eq_ok {α : Type} (a : α) : (pure a : Except (Trap ε) α) = .ok a := rfl

/-- A sequence ran to its end exactly when both parts did. -/
theorem bind_eq_ok {α β : Type} {x : Except (Trap ε) α} {f : α → Except (Trap ε) β} {b : β} :
    (x >>= f) = .ok b ↔ ∃ a, x = .ok a ∧ f a = .ok b := by
  cases x with
  | error e =>
    constructor
    · intro h
      cases h
    · rintro ⟨_, h, _⟩
      cases h
  | ok a => simp

@[simp] theorem lift_ok {α : Type} (a : α) : lift (.ok a : Except ε α) = .ok a := rfl

theorem lift_eq_ok {α : Type} {x : Except ε α} {a : α} (h : lift x = .ok a) : x = .ok a := by
  cases x with
  | error e => cases h
  | ok b =>
    cases h
    rfl

@[simp] theorem exec_nil (sc : State μ × Control) : exec bus params [] sc = .ok sc := rfl

theorem exec_append (code code' : List (Instr φ)) (sc : State μ × Control) :
    exec bus params (code ++ code') sc = exec bus params code sc >>= exec bus params code' :=
  List.foldlM_append ..

@[simp] theorem exec_run (i : Instr φ) (code : List (Instr φ)) :
    exec bus params (i :: code) (s, .run) = step bus params s i >>= exec bus params code :=
  rfl

@[simp] theorem exec_label (n : Nat) (code : List (Instr φ)) :
    exec bus params (.label n :: code) (s, .seek n) = exec bus params code (s, .run) := by
  simp [exec, advance]

/-- A jump skips what is not a label. -/
theorem exec_seek {i : Instr φ} (hi : ∀ n, i ≠ .label n) (l : Nat) (code : List (Instr φ)) :
    exec bus params (i :: code) (s, .seek l) = exec bus params code (s, .seek l) := by
  cases i with
  | label n => exact absurd rfl (hi n)
  | _ => rfl

/-- A jump skips the other labels. -/
theorem exec_label_of_ne {n l : Nat} (h : n ≠ l) (code : List (Instr φ)) :
    exec bus params (.label n :: code) (s, .seek l) = exec bus params code (s, .seek l) := by
  simp [exec, advance, h]

/-- A block that was left is not run on. -/
theorem exec_left (code : List (Instr φ)) : exec bus params code (s, .left) = .ok (s, .left) := by
  induction code with
  | nil => rfl
  | cons i code ih => exact ih

end Exec

/-! ## The state behind an instruction -/

@[simp] theorem setQuad_regs (s : State μ) (r r' : Reg) (value : Quad) :
    (s.setQuad r value).regs r' = if r' = r then value else s.regs r' :=
  Function.update_apply ..

@[simp] theorem setLong_regs (s : State μ) (r r' : Reg) (value : Long) :
    (s.setLong r value).regs r' = if r' = r then value.setWidth 64 else s.regs r' :=
  Function.update_apply ..

@[simp] theorem setLong_long (s : State μ) (r r' : Reg) (value : Long) :
    (s.setLong r value).long r' = if r' = r then value else s.long r' := by
  unfold State.long
  rw [setLong_regs]
  split
  · simp
  · rfl

@[simp] theorem setQuad_long_of_ne (s : State μ) {r r' : Reg} (value : Quad) (h : r' ≠ r) :
    (s.setQuad r value).long r' = s.long r' := by
  rw [State.long, setQuad_regs, if_neg h, State.long]

@[simp] theorem setQuad_long_self (s : State μ) (r : Reg) (value : Quad) :
    (s.setQuad r value).long r = value.setWidth 32 := by
  rw [State.long, setQuad_regs, if_pos rfl]

@[simp] theorem setQuad_mem (s : State μ) (r : Reg) (value : Quad) :
    (s.setQuad r value).mem = s.mem := rfl

@[simp] theorem setLong_mem (s : State μ) (r : Reg) (value : Long) :
    (s.setLong r value).mem = s.mem := rfl

@[simp] theorem setByte_regs_of_ne (s : State μ) {r r' : Reg} (value : BitVec 8) (h : r' ≠ r) :
    (s.setByte r value).regs r' = s.regs r' :=
  Function.update_of_ne h ..

/-- The low byte is what was written. -/
@[simp] theorem setByte_regs_setWidth (s : State μ) (r : Reg) (value : BitVec 8) :
    ((s.setByte r value).regs r).setWidth 8 = value := by
  rw [State.setByte, setQuad_regs, if_pos rfl]
  exact BitVec.setWidth_append_eq_right

@[simp] theorem setByte_mem (s : State μ) (r : Reg) (value : BitVec 8) :
    (s.setByte r value).mem = s.mem := rfl

@[simp] theorem withMem_regs (s : State μ) (mem : μ) : (s.withMem mem).regs = s.regs := rfl

@[simp] theorem withMem_long (s : State μ) (mem : μ) (r : Reg) :
    (s.withMem mem).long r = s.long r := rfl

@[simp] theorem withMem_mem (s : State μ) (mem : μ) : (s.withMem mem).mem = mem := rfl

@[simp] theorem dropFlags_regs (s : State μ) : s.dropFlags.regs = s.regs := rfl

@[simp] theorem dropFlags_long (s : State μ) (r : Reg) : s.dropFlags.long r = s.long r := rfl

@[simp] theorem dropFlags_mem (s : State μ) : s.dropFlags.mem = s.mem := rfl

@[simp] theorem compare_regs (s : State μ) (a b : Long) : (s.compare a b).regs = s.regs := rfl

@[simp] theorem compare_long (s : State μ) (a b : Long) (r : Reg) :
    (s.compare a b).long r = s.long r := rfl

@[simp] theorem compare_mem (s : State μ) (a b : Long) : (s.compare a b).mem = s.mem := rfl

@[simp] theorem compare_test (s : State μ) (a b : Long) (c : Cond) :
    ((s.compare a b).test c : Except (Trap ε) Bool) = .ok (c.holds (.compare a b)) := rfl

/-! ## What an instruction leaves alone -/

/-- The registers that an instruction writes.  A call may write any of them. -/
def Instr.written : Instr φ → List Reg
  | .movlParam _ dst | .movlImm _ dst | .movl _ dst | .movq _ dst | .load _ dst => [dst]
  | .addq _ dst | .alu _ _ dst | .aluImm _ _ dst => [dst]
  | .shift _ _ dst | .shiftCl _ dst | .shrq _ dst | .btr _ dst | .set _ dst => [dst]
  | .movzbl _ dst | .movsbl _ dst | .movzwl _ dst | .movswl _ dst | .movsxd _ dst => [dst]
  | .mull _ | .imull _ | .imulq _ | .divl _ | .idivl _ => [.rax, .rdx]
  | .store .. | .storeImm .. | .addlMem .. | .cmpl .. | .cmplImm .. | .cmplParam .. => []
  | .jcc .. | .jmp _ | .label _ => []
  | .call .. => [.rax, .rbx, .rcx, .rdx, .rsi, .rdi, .r8, .r12, .r13, .r14, .r15]

/-- The labels that an instruction may jump to. -/
def Instr.targets : Instr φ → List Nat
  | .jcc _ l | .jmp l => [l]
  | _ => []

/-- The instruction reaches neither memory nor a function. -/
def Instr.inside : Instr φ → Bool
  | .load .. | .store .. | .storeImm .. | .addlMem .. | .call .. => false
  | _ => true

/-- Behind an instruction that reaches neither memory nor a function, control is at
the next one or looks for a label that the instruction names. -/
theorem step_inside {bus : Bus ε μ φ} {params : List Long} {s s' : State μ} {i : Instr φ}
    {c : Control} (hi : i.inside = true) (h : step bus params s i = .ok (s', c)) :
    s'.mem = s.mem ∧ (∀ r, r ∉ i.written → s'.regs r = s.regs r) ∧
      (c = .run ∨ ∃ l ∈ i.targets, c = .seek l) := by
  cases i with
  | load | store | storeImm | addlMem | call => cases hi
  | mull | imull | imulq =>
    cases h
    refine ⟨rfl, fun r hr => ?_, Or.inl rfl⟩
    simp only [Instr.written, List.mem_cons, List.not_mem_nil, or_false, not_or] at hr
    simp [State.setPair, hr]
  | divl | idivl =>
    obtain ⟨⟨q, rem⟩, -, h⟩ := bind_eq_ok.mp h
    cases h
    refine ⟨rfl, fun r hr => ?_, Or.inl rfl⟩
    simp only [Instr.written, List.mem_cons, List.not_mem_nil, or_false, not_or] at hr
    simp [hr]
  | movlParam | cmplParam | set =>
    obtain ⟨value, -, h⟩ := bind_eq_ok.mp h
    cases h
    refine ⟨rfl, fun r hr => ?_, Or.inl rfl⟩
    simp only [Instr.written, List.mem_cons, List.not_mem_nil, or_false, not_false_eq_true] at hr
    simp [hr]
  | jcc cond l =>
    obtain ⟨taken, -, h⟩ := bind_eq_ok.mp h
    cases h
    refine ⟨rfl, fun _ _ => rfl, ?_⟩
    cases taken with
    | true => exact Or.inr ⟨l, List.mem_singleton_self l, rfl⟩
    | false => exact Or.inl rfl
  | jmp l =>
    cases h
    exact ⟨rfl, fun _ _ => rfl, Or.inr ⟨l, List.mem_singleton_self l, rfl⟩⟩
  | _ =>
    cases h
    refine ⟨rfl, fun r hr => ?_, Or.inl rfl⟩
    simp_all [Instr.written]

/-! ## What code keeps -/

/-- The accesses and the called functions keep a property of the memory. -/
structure Bus.Keeps (bus : Bus ε μ φ) (P : μ → Prop) : Prop where
  load : ∀ {addr m value m'}, P m → bus.load addr m = .ok (value, m') → P m'
  store : ∀ {addr value m m'}, P m → bus.store addr value m = .ok m' → P m'
  call : ∀ {f regs m outcome m'}, P m → bus.call f regs m = .ok (outcome, m') → P m'

section Keeps

variable {bus : Bus ε μ φ} {params : List Long} {P : μ → Prop} {i : Instr φ}

theorem step_keeps (hbus : bus.Keeps P) {s : State μ} {sc' : State μ × Control} (h : P s.mem)
    (hstep : step bus params s i = .ok sc') : P sc'.1.mem := by
  cases hi : i.inside with
  | true =>
    obtain ⟨hmem, -⟩ := step_inside hi hstep
    exact hmem ▸ h
  | false =>
    cases i with
    | load addr dst =>
      obtain ⟨⟨value, mem⟩, hload, hstep⟩ := bind_eq_ok.mp hstep
      cases hstep
      exact hbus.load h (lift_eq_ok hload)
    | store src addr =>
      obtain ⟨mem, hstore, hstep⟩ := bind_eq_ok.mp hstep
      cases hstep
      exact hbus.store h (lift_eq_ok hstore)
    | storeImm value addr =>
      obtain ⟨mem, hstore, hstep⟩ := bind_eq_ok.mp hstep
      cases hstep
      exact hbus.store h (lift_eq_ok hstore)
    | addlMem value addr =>
      obtain ⟨⟨old, mem⟩, hload, hstep⟩ := bind_eq_ok.mp hstep
      obtain ⟨mem', hstore, hstep⟩ := bind_eq_ok.mp hstep
      cases hstep
      exact hbus.store (hbus.load h (lift_eq_ok hload)) (lift_eq_ok hstore)
    | call f saved =>
      obtain ⟨⟨outcome, mem⟩, hcall, hstep⟩ := bind_eq_ok.mp hstep
      have hmem : P mem := hbus.call h (lift_eq_ok hcall)
      cases outcome with
      | returns regs =>
        cases hstep
        exact hmem
      | leaves =>
        cases hstep
        exact hmem
    | _ => cases hi

/-- Code keeps what the bus keeps, whether its instructions run or are skipped. -/
theorem exec_keeps (hbus : bus.Keeps P) {code : List (Instr φ)} {sc sc' : State μ × Control}
    (h : P sc.1.mem) (hexec : exec bus params code sc = .ok sc') : P sc'.1.mem := by
  induction code generalizing sc with
  | nil =>
    cases hexec
    exact h
  | cons i code ih =>
    obtain ⟨sc₁, hadvance, hexec⟩ := bind_eq_ok.mp hexec
    refine ih ?_ hexec
    obtain ⟨s, c⟩ := sc
    cases c with
    | run => exact step_keeps hbus h hadvance
    | left =>
      cases hadvance
      exact h
    | seek l =>
      simp only [advance] at hadvance
      split at hadvance
      next =>
        cases hadvance
        exact h
      next =>
        cases hadvance
        exact h

end Keeps

/-! ## What a comparison says -/

@[simp] theorem holds_e (a b : Long) : Cond.e.holds (.compare a b) = decide (a = b) := by
  have hsub : a - b = 0#32 ↔ a = b := by grind
  exact Bool.eq_iff_iff.mpr (by simp [Cond.holds, Flags.compare, hsub])

@[simp] theorem holds_ne (a b : Long) : Cond.ne.holds (.compare a b) = !decide (a = b) :=
  congrArg Bool.not (holds_e a b)

@[simp] theorem holds_b (a b : Long) : Cond.b.holds (.compare a b) = a.ult b := rfl

@[simp] theorem holds_ae (a b : Long) : Cond.ae.holds (.compare a b) = !a.ult b := rfl

@[simp] theorem holds_l (a b : Long) : Cond.l.holds (.compare a b) = a.slt b := by
  simp only [Cond.holds, Flags.compare, BitVec.slt, BitVec.msb_eq_decide, BitVec.toNat_sub,
    BitVec.toInt_eq_toNat_cond]
  have ha := a.isLt
  have hb := b.isLt
  grind

@[simp] theorem holds_ge (a b : Long) : Cond.ge.holds (.compare a b) = !a.slt b := by
  rw [← holds_l]
  simp [Cond.holds, bne]

end Lib.X86
