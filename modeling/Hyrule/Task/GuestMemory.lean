import Hyrule.Memory.Flat
import Hyrule.Cpu.MemoryBlocks
import Hyrule.Task.ZeroRegister

/-!
# Loads and stores of a guest

What the loads, the stores and the atomic operations of the instruction set do on a
byte map (`Instruction.flatStep`), and that the translated blocks do the same on the
buffers of the region table (`guestMemory_flat`).  The tasks that share a memory may
run their instructions in any order, at any addresses and with any overlaps.  Each
access has to lie inside one region.
-/

namespace Hyrule

open Lib Lib.X86 Riscv

/-! ## The instruction set -/

namespace Riscv

/-- The number of bytes of a load. -/
def LoadOp.size : LoadOp → Nat
  | .lb | .lbu => 1
  | .lh | .lhu => 2
  | .lw => 4

/-- The word that a load makes of what it reads. -/
def LoadOp.extend : LoadOp → Nat → Word
  | .lb, v => (BitVec.ofNat 8 v).signExtend 32
  | .lbu, v => (BitVec.ofNat 8 v).setWidth 32
  | .lh, v => (BitVec.ofNat 16 v).signExtend 32
  | .lhu, v => (BitVec.ofNat 16 v).setWidth 32
  | .lw, v => BitVec.ofNat 32 v

/-- The number of bytes of a store. -/
def StoreOp.size : StoreOp → Nat
  | .sb => 1
  | .sh => 2
  | .sw => 4

/-- The word that an atomic operation writes back. -/
def AmoOp.eval : AmoOp → (old operand : Word) → Word
  | .swap, _, operand => operand
  | .add, old, operand => old + operand
  | .xor, old, operand => old ^^^ operand
  | .and, old, operand => old &&& operand
  | .or, old, operand => old ||| operand
  | .min, old, operand => if old.slt operand then old else operand
  | .max, old, operand => if operand.slt old then old else operand
  | .minu, old, operand => if old < operand then old else operand
  | .maxu, old, operand => if operand < old then old else operand

/-- The first byte that an instruction accesses, and the number of bytes. -/
def Instruction.access (hart : Hart) : Instruction → Option (Word × Nat)
  | .load op _ rs1 offset => some (hart.registers rs1 + offset, op.size)
  | .store op rs1 _ offset => some (hart.registers rs1 + offset, op.size)
  | .lr _ rs1 | .sc _ rs1 _ | .amo _ _ rs1 _ => some (hart.registers rs1, 4)
  | _ => none

end Riscv

/-- The harts of the tasks that share a memory, with the memory as a byte map. -/
structure FlatState where
  memory : FlatMemory
  harts : TaskId → Hart
  reservations : Reservations

/-- The state with the hart of a task overwritten. -/
def FlatState.setHart (s : FlatState) (t : TaskId) (hart : Hart) : FlatState :=
  { s with harts := Function.update s.harts t hart }

/-- A register is written and the pc moves on. -/
def Riscv.writeNext (hart : Hart) (rd : RegisterIndex) (value : Word) : Hart :=
  { write hart rd value with pc := hart.pc + 4 }

/-- A task executes an instruction that accesses memory.  An atomic operation at an
address that is not aligned goes to the trap vector.  An `sc.w` is tested for its
reservation first. -/
def Riscv.Instruction.flatStep (t : TaskId) (trap : Word) (s : FlatState) :
    Instruction → Option FlatState
  | .load op rd rs1 offset =>
      let hart := s.harts t
      let value := op.extend (s.memory.read (hart.registers rs1 + offset) op.size)
      some (s.setHart t (writeNext hart rd value))
  | .store op rs1 rs2 offset =>
      let hart := s.harts t
      let memory := s.memory.write (hart.registers rs1 + offset) op.size
        (hart.registers rs2).toNat
      some { s.setHart t { hart with pc := hart.pc + 4 } with memory }
  | .lr rd rs1 =>
      let hart := s.harts t
      let address := hart.registers rs1
      if address &&& 3 ≠ 0 then some (s.setHart t { hart with pc := trap })
      else
        let value := BitVec.ofNat 32 (s.memory.read address 4)
        some { s.setHart t (writeNext hart rd value) with
          reservations := s.reservations.reserve address hart }
  | .sc rd rs1 rs2 =>
      let hart := s.harts t
      let address := hart.registers rs1
      match s.reservations.find address hart with
      | none => some (s.setHart t (writeNext hart rd 1))
      | some idx =>
          if address &&& 3 ≠ 0 then some (s.setHart t { write hart rd 0 with pc := trap })
          else some {
            memory := s.memory.write address 4 (hart.registers rs2).toNat
            harts := Function.update s.harts t (writeNext hart rd 0)
            reservations := s.reservations.clear idx }
  | .amo op rd rs1 rs2 =>
      let hart := s.harts t
      let address := hart.registers rs1
      if address &&& 3 ≠ 0 then some (s.setHart t { hart with pc := trap })
      else
        let old := BitVec.ofNat 32 (s.memory.read address 4)
        some { s.setHart t (writeNext hart rd old) with
          memory := s.memory.write address 4 (op.eval old (hart.registers rs2)).toNat }
  | _ => none

/-! ## Runs -/

/-- The trap vector of a run. -/
def InstructionRun.trap (run : InstructionRun) : Word := run.host.mtvec &&& ~~~3

/-- A run of translated instructions that access memory, each inside one region. -/
inductive FlatRun (regions : RegionTable) : FlatState → List InstructionRun → FlatState → Prop
  | nil (s : FlatState) : FlatRun regions s [] s
  | cons {s s' s'' : FlatState} {run : InstructionRun} {runs : List InstructionRun}
      {b : TranslatedBlock} {i : Instruction} {address : Word} {size : Nat} {r : PmRegion} :
      translate run.address run.instruction = .ok b → decode run.instruction = some i →
      i.access (s.harts run.task) = some (address, size) → r ∈ regions.pmrOps →
      r.ContainsAccess address size → i.flatStep run.task run.trap s = some s' →
      FlatRun regions s' runs s'' → FlatRun regions s (run :: runs) s''

/-- The memory of a task and the harts, as a byte map. -/
def Sandbox.flat (s : Sandbox) (owner : TaskId) : FlatState where
  memory := flatMemory s.forest.heap (s.forest.vm owner).memory.regions
  harts t := (s.forest.vm t).hart
  reservations := s.reservations

@[simp] theorem Sandbox.flat_harts (s : Sandbox) (owner t : TaskId) :
    (s.flat owner).harts t = (s.forest.vm t).hart := rfl

/-- The sandbox with another heap and other reservations, and the hart of a task
overwritten. -/
def Sandbox.accessed (s : Sandbox) (t : TaskId) (hart : Hart) (heap : HostHeap)
    (reservations : Reservations) : Sandbox :=
  { s with forest := { s.forest with heap }, reservations }.setHart t hart

section Accessed

variable {s : Sandbox} {t owner : TaskId} {hart : Hart} {heap : HostHeap}
  {reservations : Reservations}

theorem accessed_vm {α : Type} (field : Vm → α) (h : ∀ vm hart, field { vm with hart } = field vm)
    (u : TaskId) : field ((s.accessed t hart heap reservations).forest.vm u) =
      field (s.forest.vm u) :=
  field_setVm field (s := { s.forest with heap }) _ (h _ _) u

@[simp] theorem accessed_hart :
    ((s.accessed t hart heap reservations).forest.vm t).hart = hart := by
  simp [Sandbox.accessed, Sandbox.setHart, Sandbox.withForest, Forest.setVm]

@[simp] theorem accessed_heap : (s.accessed t hart heap reservations).forest.heap = heap := rfl

theorem accessed_flat :
    (s.accessed t hart heap reservations).flat owner =
      ⟨flatMemory heap (s.forest.vm owner).memory.regions,
        Function.update (s.flat owner).harts t hart, reservations⟩ := by
  have hmemory : ((s.accessed t hart heap reservations).forest.vm owner).memory =
      (s.forest.vm owner).memory := accessed_vm Vm.memory (fun _ _ => rfl) owner
  have hharts : (fun u => ((s.accessed t hart heap reservations).forest.vm u).hart) =
      Function.update (fun u => (s.forest.vm u).hart) t hart := by
    funext u
    by_cases hu : u = t
    · subst hu
      rw [accessed_hart, Function.update_self]
    · simp [Sandbox.accessed, Sandbox.setHart, Sandbox.withForest, Forest.setVm, hu]
  simp only [Sandbox.flat, hmemory, hharts]
  rfl

theorem linkedVmLoop_congr {s s' : Forest} (h : ∀ u, (s'.vm u).links = (s.vm u).links)
    (hint : LinkageHint) (fuel : Nat) (t : TaskId) :
    linkedVmLoop s' hint fuel t = linkedVmLoop s hint fuel t := by
  induction fuel generalizing t with
  | zero => rfl
  | succ fuel ih => simp only [linkedVmLoop, h, ih]

theorem accessed_getLinkedVm (u : TaskId) (hint : LinkageHint) :
    getLinkedVm (s.accessed t hart heap reservations).forest u hint =
      getLinkedVm s.forest u hint :=
  linkedVmLoop_congr (accessed_vm Vm.links fun _ _ => rfl) hint _ u

end Accessed

/-! ## Loads -/

namespace Riscv

/-- The function that a load calls. -/
def LoadOp.callback : LoadOp → Callback
  | .lb | .lbu => .mmuRead8
  | .lh | .lhu => .mmuRead16
  | .lw => .mmuRead32

/-- The instructions that extend what it returns. -/
def LoadOp.extendCode : LoadOp → HostCode
  | .lb => [.movsbl .rax .rax]
  | .lbu => [.movzbl .rax .rax]
  | .lh => [.movswl .rax .rax]
  | .lhu => [.movzwl .rax .rax]
  | .lw => []

theorem LoadOp.template_code (op : LoadOp) :
    op.template.code = loadCode op.callback op.extendCode := by
  cases op with
  | lb | lbu | lh | lhu | lw => rfl

theorem LoadOp.changes (op : LoadOp) {ω : Type} {base : Quad} {callbacks : Callbacks ω}
    {params : List Word} :
    Changes base callbacks params op.extendCode .rax fun value => op.extend value.toNat := by
  intro s
  cases op with
  | lb | lbu | lh | lhu =>
    refine ⟨_, rfl, rfl, fun r hr => by simp [hr], ?_⟩
    simp [LoadOp.extend]
  | lw => exact ⟨s, rfl, rfl, fun _ _ => rfl, by simp [State.long, LoadOp.extend]⟩

/-- What is returned has 64 bits. -/
theorem LoadOp.extend_ofNat (op : LoadOp) (v : Nat) :
    op.extend (BitVec.ofNat 64 v).toNat = op.extend v := by
  have hbits : ∀ k ≤ 64, BitVec.ofNat k (BitVec.ofNat 64 v).toNat = BitVec.ofNat k v := by
    intro k hk
    rw [BitVec.ofNat_toNat, BitVec.setWidth_ofNat_of_le hk]
  cases op with
  | lb | lbu => simp only [LoadOp.extend, hbits 8 (by decide)]
  | lh | lhu => simp only [LoadOp.extend, hbits 16 (by decide)]
  | lw => simp only [LoadOp.extend, hbits 32 (by decide)]

end Riscv

/-- A read of a size by the functions that a load calls. -/
theorem sandboxCallbacks_load (t : TaskId) (host : HostSide) (op : LoadOp) (args : Reg → Quad)
    (m : Machine Sandbox) :
    sandboxCallbacks t host op.callback args m = mmuRead t host args m op.size := by
  cases op with
  | lb | lbu | lh | lhu | lw => rfl

section Blocks

variable {s : Sandbox} {run : InstructionRun} {owner : TaskId} {b : TranslatedBlock}
  {m : Machine Sandbox} {r : PmRegion}

/-- The sandbox behind a block that ran to its end. -/
theorem InstructionRun.next_of_runsTo (hb : translate run.address run.instruction = .ok b)
    (h : RunsTo run.base (sandboxCallbacks run.task run.host) b.params b.template.code
      (run.entry s) m) :
    run.next s = .ok (m.world.setHart run.task m.hart) := by
  obtain ⟨s', hexec, rfl, -⟩ := h
  rw [InstructionRun.next, hb, lift_ok, X86.ok_bind, InstructionRun.execute, hexec]
  rfl

theorem InstructionRun.entry_entered (run : InstructionRun) (s : Sandbox) :
    Entered run.base (run.entry s).regs :=
  ⟨rfl, rfl, rfl⟩

theorem InstructionRun.entry_hart (run : InstructionRun) (s : Sandbox) :
    (run.entry s).mem.hart = (s.forest.vm run.task).hart := rfl

/-- What a step on the byte map leaves is what the block leaves. -/
def Simulates (run : InstructionRun) (s : Sandbox) (owner : TaskId) (f : FlatState) : Prop :=
  ∃ hart heap reservations, run.next s = .ok (s.accessed run.task hart heap reservations) ∧
    SeparatelyBacked heap (s.forest.vm owner).memory.regions ∧
    (∀ p, (∀ r ∈ (s.forest.vm owner).memory.regions.pmrOps, r.hostBase ≠ some p) →
      heap p = s.forest.heap p) ∧
    (s.accessed run.task hart heap reservations).flat owner = f

/-- The table of a task is in order, and every region has a buffer of its own.  The zero
registers are zero. -/
structure FlatBacked (s : Sandbox) (owner : TaskId) : Prop where
  order : RegionsInOrder (s.forest.vm owner).memory.regions.pmrOps
  backed : SeparatelyBacked s.forest.heap (s.forest.vm owner).memory.regions
  zero : s.ZeroHarts

theorem load_simulates {op : LoadOp} {rd rs1 : RegisterIndex} {offset : Word}
    (hlink : getLinkedVm s.forest run.task .vm = .ok owner) (hs : FlatBacked s owner)
    (hr : r ∈ (s.forest.vm owner).memory.regions.pmrOps)
    (hinside : r.ContainsAccess ((s.forest.vm run.task).hart.registers rs1 + offset) op.size)
    (hb : translate run.address run.instruction =
      .ok ⟨op.template, [offset, indexParam rs1, indexParam rd]⟩) :
    Simulates run s owner ((s.flat owner).setHart run.task (writeNext (s.forest.vm run.task).hart rd
      (op.extend ((s.flat owner).memory.read
        ((s.forest.vm run.task).hart.registers rs1 + offset) op.size)))) := by
  have hread := directRead_flat hs.order hs.backed hr hinside
  generalize hv : (flatMemory s.forest.heap (s.forest.vm owner).memory.regions).read
    ((s.forest.vm run.task).hart.registers rs1 + offset) op.size = v at hread
  have hcall : ∀ args : Reg → Quad,
      (args .rsi).setWidth 32 = (s.forest.vm run.task).hart.registers rs1 + offset →
      sandboxCallbacks run.task run.host op.callback args ((run.entry s).mem.readOperand rs1) =
        .ok (returnValue run.host (BitVec.ofNat 64 v), (run.entry s).mem.readOperand rs1) := by
    intro args hargs
    have hworld : s.read run.task ((args .rsi).setWidth 32) op.size = .ok v := by
      rw [Sandbox.read, hlink, Result.ok_bind, hargs, hread]
    rw [sandboxCallbacks_load, mmuRead]
    exact Result.bind_eq_ok.mpr ⟨v, hworld, rfl⟩
  have hextend : Changes run.base (sandboxCallbacks run.task run.host)
      [offset, indexParam rs1, indexParam rd] op.extendCode .rax _ := op.changes
  have hruns := runs_loadCode hextend hcall (run.entry_entered s)
  rw [← op.template_code, Function.update_self, op.extend_ofNat] at hruns
  refine ⟨_, s.forest.heap, s.reservations, run.next_of_runsTo hb hruns, hs.backed,
    fun _ _ => rfl, ?_⟩
  rw [accessed_flat, withHart_hart, run.entry_hart, proceed_setRegister (hs.zero run.task), ← hv]
  rfl

end Blocks

/-! ## Stores -/

namespace Riscv

/-- The function that a store calls. -/
def StoreOp.callback : StoreOp → Callback
  | .sb => .mmuWrite8
  | .sh => .mmuWrite16
  | .sw => .mmuWrite32

/-- The mask of what it is called with. -/
def StoreOp.maskCode : StoreOp → HostCode
  | .sb => [.aluImm .and 0xff .rdx]
  | .sh => [.aluImm .and 0xffff .rdx]
  | .sw => []

theorem StoreOp.template_code (op : StoreOp) :
    op.template.code = storeCode op.callback op.maskCode := by
  cases op with
  | sb | sh | sw => rfl

/-- The word that is passed. -/
def StoreOp.masked : StoreOp → Word → Word
  | .sb, v => v &&& 0xff
  | .sh, v => v &&& 0xffff
  | .sw, v => v

theorem StoreOp.changes (op : StoreOp) {ω : Type} {base : Quad} {callbacks : Callbacks ω}
    {params : List Word} :
    Changes base callbacks params op.maskCode .rdx fun value =>
      op.masked (value.setWidth 32) := by
  intro s
  cases op with
  | sb | sh => exact ⟨_, rfl, rfl, fun r hr => by simp [hr], by simp [masked, Alu.eval]; rfl⟩
  | sw => exact ⟨s, rfl, rfl, fun _ _ => rfl, rfl⟩

/-- The mask keeps the bytes that are stored. -/
theorem StoreOp.masked_toNat (op : StoreOp) (v : Word) :
    (op.masked v).toNat = v.toNat % 256 ^ op.size := by
  cases op with
  | sb => exact Nat.and_two_pow_sub_one_eq_mod v.toNat 8
  | sh => exact Nat.and_two_pow_sub_one_eq_mod v.toNat 16
  | sw => exact (Nat.mod_eq_of_lt v.isLt).symm

end Riscv

theorem sandboxCallbacks_store (t : TaskId) (host : HostSide) (op : StoreOp) (args : Reg → Quad)
    (m : Machine Sandbox) :
    sandboxCallbacks t host op.callback args m = mmuWrite t host args m op.size := by
  cases op with
  | sb | sh | sw => rfl

section Blocks

variable {s : Sandbox} {run : InstructionRun} {owner : TaskId} {r : PmRegion}

theorem store_simulates {op : StoreOp} {rs1 rs2 : RegisterIndex} {offset : Word}
    (hlink : getLinkedVm s.forest run.task .vm = .ok owner) (hs : FlatBacked s owner)
    (hr : r ∈ (s.forest.vm owner).memory.regions.pmrOps)
    (hinside : r.ContainsAccess ((s.forest.vm run.task).hart.registers rs1 + offset) op.size)
    (hb : translate run.address run.instruction =
      .ok ⟨op.template, [offset, indexParam rs1, indexParam rs2]⟩) :
    Simulates run s owner
      { (s.flat owner).setHart run.task
          { (s.forest.vm run.task).hart with pc := (s.forest.vm run.task).hart.pc + 4 } with
        memory := (s.flat owner).memory.write
          ((s.forest.vm run.task).hart.registers rs1 + offset) op.size
          ((s.forest.vm run.task).hart.registers rs2).toNat } := by
  generalize hv : op.masked ((s.forest.vm run.task).hart.registers rs2) = v
  obtain ⟨heap, hwrite, hflat, hbacked, hframe⟩ :=
    directWrite_flat hs.order hs.backed hr hinside v.toNat
  have hcall : ∀ args : Reg → Quad,
      (args .rsi).setWidth 32 = (s.forest.vm run.task).hart.registers rs1 + offset →
      (args .rdx).setWidth 32 = op.masked
        ((((s.forest.vm run.task).hart.registers rs2).setWidth 64).setWidth 32) →
      sandboxCallbacks run.task run.host op.callback args
          (((run.entry s).mem.readOperand rs1).readOperand rs2) =
        .ok (.returns run.host.clobbered, { ((run.entry s).mem.readOperand rs1).readOperand rs2 with
          world := s.withForest { s.forest with heap } }) := by
    intro args haddress hvalue
    rw [BitVec.setWidth_setWidth_of_le _ (by decide), BitVec.setWidth_eq, hv] at hvalue
    have hworld : s.write run.task ((args .rsi).setWidth 32) op.size
        ((args .rdx).setWidth 32).toNat = .ok (s.withForest { s.forest with heap }) := by
      rw [Sandbox.write, hlink, Result.ok_bind, haddress, hvalue, hwrite]
      rfl
    rw [sandboxCallbacks_store, mmuWrite]
    exact Result.bind_eq_ok.mpr ⟨_, hworld, rfl⟩
  have hmask : Changes run.base (sandboxCallbacks run.task run.host)
      [offset, indexParam rs1, indexParam rs2] op.maskCode .rdx _ := op.changes
  have hruns := runs_storeCode hmask hcall (run.entry_entered s)
  rw [← op.template_code] at hruns
  refine ⟨_, heap, s.reservations, run.next_of_runsTo hb hruns, hbacked, hframe, ?_⟩
  rw [accessed_flat, hflat, ← hv, op.masked_toNat, FlatMemory.write_mod]
  rfl

end Blocks

/-! ## Atomic operations -/

theorem indexArgument_indexParam (i : RegisterIndex) :
    indexArgument ((indexParam i).setWidth 64) = .ok i := by
  have hi := i.isLt
  have hval : ((indexParam i).setWidth 64).toNat = i.val := by
    simp only [indexParam, BitVec.toNat_setWidth, BitVec.toNat_ofNat]
    omega
  simp only [indexArgument, hval, Nat.mod_eq_of_lt (by omega : i.val < 256), dif_pos hi]
  rfl

theorem readAmoOperands_world (m : Machine Sandbox) (funct5 : Nat) (rs1 rs2 : RegisterIndex) :
    (m.readAmoOperands funct5 rs1 rs2).world = m.world := by
  unfold Machine.readAmoOperands
  split <;> rfl

/-- The slow path of an atomic operation of a run. -/
def InstructionRun.amo (run : InstructionRun) (s : Sandbox) (owner : TaskId) (funct5 : Word)
    (rs1 rs2 rd : RegisterIndex) : Result AmoState :=
  amoInstructionSlowpath funct5.toNat (s.forest.vm owner).memory.regions
    ⟨(s.forest.vm run.task).hart, s.forest.heap, s.reservations⟩ rs1 rs2 rd

section Blocks

variable {s : Sandbox} {run : InstructionRun} {owner : TaskId} {r : PmRegion} {funct5 : Word}
  {rd rs1 rs2 : RegisterIndex}

/-- The call of a block passes on what the slow path does. -/
theorem InstructionRun.amoCallback_eq {args : Reg → Quad}
    (hlink : getLinkedVm s.forest run.task .vm = .ok owner)
    (hargs : AmoArguments rs1 rs2 rd funct5 args) :
    sandboxCallbacks run.task run.host .amoInstructionSlowpath args (run.entry s).mem =
      let m := (run.entry s).mem.readAmoOperands funct5.toNat rs1 rs2
      match run.amo s owner funct5 rs1 rs2 rd with
      | .ok a => .ok (.returns run.host.clobbered, { m with
          hart := a.hart
          world := { s with
            forest := { s.forest with heap := a.heap }, reservations := a.reservations } })
      | .error .exception => .ok (.leaves, m.withHart
          (amoRaised run.host funct5.toNat rd (s.forest.vm run.task).hart))
      | .error e => .error e := by
  obtain ⟨hrs1, hrs2, hrd, hfunct5⟩ := hargs
  have hfunct : ((args .r8).setWidth 32).toNat = funct5.toNat := by
    rw [hfunct5, BitVec.setWidth_setWidth_of_le _ (by decide), BitVec.setWidth_eq]
  have hworld : (run.entry s).mem.world = s := rfl
  simp only [sandboxCallbacks, amoCallback, hrs1, hrs2, hrd, indexArgument_indexParam,
    Result.ok_bind, hfunct, hworld, hlink, readAmoOperands_hart, readAmoOperands_world]
  rfl

/-- The block of an atomic operation whose slow path returns. -/
theorem InstructionRun.next_amo (hlink : getLinkedVm s.forest run.task .vm = .ok owner)
    (hb : translate run.address run.instruction =
      .ok ⟨.amo, [indexParam rs1, indexParam rs2, indexParam rd, funct5]⟩) {a : AmoState}
    (hslow : run.amo s owner funct5 rs1 rs2 rd = .ok a) :
    run.next s = .ok (s.accessed run.task a.hart.proceed a.heap a.reservations) := by
  have hcall : ∀ args, AmoArguments rs1 rs2 rd funct5 args → _ :=
    fun args hargs => run.amoCallback_eq hlink hargs
  simp only [hslow] at hcall
  exact run.next_of_runsTo hb (runs_amoCode hcall (run.entry_entered s))

/-- The block of an atomic operation whose slow path raises an exception. -/
theorem InstructionRun.next_amo_raises (hlink : getLinkedVm s.forest run.task .vm = .ok owner)
    (hb : translate run.address run.instruction =
      .ok ⟨.amo, [indexParam rs1, indexParam rs2, indexParam rd, funct5]⟩)
    (hslow : run.amo s owner funct5 rs1 rs2 rd = .error .exception) :
    run.next s = .ok (s.accessed run.task
      (amoRaised run.host funct5.toNat rd (s.forest.vm run.task).hart) s.forest.heap
      s.reservations) := by
  have hcall : ∀ args, AmoArguments rs1 rs2 rd funct5 args → _ :=
    fun args hargs => run.amoCallback_eq hlink hargs
  simp only [hslow] at hcall
  obtain ⟨s', hexec, hmem⟩ := amoCode_leaves hcall (run.entry_entered s)
  rw [InstructionRun.next, hb, lift_ok, X86.ok_bind, InstructionRun.execute]
  refine X86.bind_eq_ok.mpr ⟨_, hexec, ?_⟩
  have hworld : s'.mem.world = s := by
    rw [hmem]
    exact readAmoOperands_world ..
  dsimp only
  rw [hworld, hmem]
  rfl

/-- An atomic operation that was run returned from its slow path, or raised an exception
there. -/
theorem InstructionRun.next_amo_cases {s' : Sandbox}
    (hb : translate run.address run.instruction =
      .ok ⟨.amo, [indexParam rs1, indexParam rs2, indexParam rd, funct5]⟩)
    (h : run.next s = .ok s') :
    ∃ owner, getLinkedVm s.forest run.task .vm = .ok owner ∧
      ((∃ a, run.amo s owner funct5 rs1 rs2 rd = .ok a ∧
          s' = s.accessed run.task a.hart.proceed a.heap a.reservations) ∨
        run.amo s owner funct5 rs1 rs2 rd = .error .exception) := by
  have hnext := h
  rw [InstructionRun.next, hb, lift_ok, X86.ok_bind] at hnext
  obtain ⟨sc, hexec, -⟩ := X86.bind_eq_ok.mp hnext
  obtain ⟨args, called, hargs, hcall⟩ := amoCode_called (run.entry_entered s) hexec
  have hlinked := hcall
  simp only [sandboxCallbacks, amoCallback, hargs.1, hargs.2.1, hargs.2.2.1,
    indexArgument_indexParam, Result.ok_bind] at hlinked
  obtain ⟨owner, hlink, -⟩ := Result.bind_eq_ok.mp hlinked
  replace hlink : getLinkedVm s.forest run.task .vm = .ok owner := hlink
  refine ⟨owner, hlink, ?_⟩
  rw [run.amoCallback_eq hlink hargs] at hcall
  cases hslow : run.amo s owner funct5 rs1 rs2 rd with
  | ok a =>
    rw [run.next_amo hlink hb hslow] at h
    exact Or.inl ⟨a, rfl, (Except.ok.inj h).symm⟩
  | error e =>
    simp only [hslow] at hcall
    split at hcall
    next hok => cases hok
    next he =>
      cases he
      exact Or.inr rfl
    next => cases hcall

/-- The address of an atomic operation is aligned. -/
theorem mmuRead32Aligned_flat {heap : HostHeap} {t : RegionTable} {address : Word}
    (halign : ¬ address &&& 3 ≠ 0) (horder : RegionsInOrder t.pmrOps)
    (hbacked : SeparatelyBacked heap t) (hr : r ∈ t.pmrOps) (h : r.ContainsAccess address 4) :
    mmuRead32Aligned heap t address =
      .ok (BitVec.ofNat 32 ((flatMemory heap t).read address 4)) := by
  rw [mmuRead32Aligned, if_neg halign, directRead_flat horder hbacked hr h]
  rfl

/-- The slow path of an operation applies the operation. -/
theorem InstructionRun.amo_eq {op : AmoOp} (hfunct5 : op.funct5 = some funct5) :
    run.amo s owner funct5 rs1 rs2 rd =
      amoSlowpath op.eval (s.forest.vm owner).memory.regions
        ⟨(s.forest.vm run.task).hart, s.forest.heap, s.reservations⟩ rs1 rs2 rd := by
  cases op with
  | min | max | minu => cases hfunct5
  | swap | add | xor | and | or | maxu =>
    cases hfunct5
    rfl

theorem amo_simulates {op : AmoOp} (hfunct5 : op.funct5 = some funct5)
    (hlink : getLinkedVm s.forest run.task .vm = .ok owner) (hs : FlatBacked s owner)
    (hr : r ∈ (s.forest.vm owner).memory.regions.pmrOps)
    (hinside : r.ContainsAccess ((s.forest.vm run.task).hart.registers rs1) 4)
    (hb : translate run.address run.instruction =
      .ok ⟨.amo, [indexParam rs1, indexParam rs2, indexParam rd, funct5]⟩) {f : FlatState}
    (hf : (Instruction.amo op rd rs1 rs2).flatStep run.task run.trap (s.flat owner) = some f) :
    Simulates run s owner f := by
  have hslow : run.amo s owner funct5 rs1 rs2 rd = _ := run.amo_eq hfunct5
  have hnot : funct5.toNat ≠ 3 := by
    cases op with
    | min | max | minu => cases hfunct5
    | swap | add | xor | and | or | maxu =>
      cases hfunct5
      decide
  by_cases halign : (s.forest.vm run.task).hart.registers rs1 &&& 3 ≠ 0
  · have hraises : run.amo s owner funct5 rs1 rs2 rd = .error .exception := by
      rw [hslow, amoSlowpath, mmuRead32Aligned, if_pos halign]
      rfl
    refine ⟨_, _, _, run.next_amo_raises hlink hb hraises, hs.backed, fun _ _ => rfl, ?_⟩
    rw [Instruction.flatStep, Sandbox.flat_harts, if_pos halign] at hf
    cases hf
    rw [accessed_flat, amoRaised, if_neg hnot]
    rfl
  · generalize hv : BitVec.ofNat 32 ((flatMemory s.forest.heap
      (s.forest.vm owner).memory.regions).read ((s.forest.vm run.task).hart.registers rs1) 4) = v
    have hread := mmuRead32Aligned_flat halign hs.order hs.backed hr hinside
    rw [hv] at hread
    obtain ⟨heap, hwrite, hflat, hbacked, hframe⟩ := directWrite_flat hs.order hs.backed hr hinside
      (op.eval v ((s.forest.vm run.task).hart.registers rs2)).toNat
    have hok : run.amo s owner funct5 rs1 rs2 rd =
        .ok ⟨(s.forest.vm run.task).hart.setRegister rd v, heap, s.reservations⟩ := by
      simp only [hslow, amoSlowpath, hread, Result.ok_bind, Hart.setRegister_self,
        mmuWrite32Aligned, if_neg halign, hwrite]
      rfl
    refine ⟨_, _, _, run.next_amo hlink hb hok, hbacked, hframe, ?_⟩
    rw [Instruction.flatStep, Sandbox.flat_harts, if_neg halign] at hf
    cases hf
    rw [accessed_flat, hflat, proceed_setRegister (hs.zero run.task), ← hv]
    rfl

theorem lr_simulates
    (hlink : getLinkedVm s.forest run.task .vm = .ok owner) (hs : FlatBacked s owner)
    (hr : r ∈ (s.forest.vm owner).memory.regions.pmrOps)
    (hinside : r.ContainsAccess ((s.forest.vm run.task).hart.registers rs1) 4)
    (hb : translate run.address run.instruction =
      .ok ⟨.amo, [indexParam rs1, indexParam 0, indexParam rd, 0x2]⟩) {f : FlatState}
    (hf : (Instruction.lr rd rs1).flatStep run.task run.trap (s.flat owner) = some f) :
    Simulates run s owner f := by
  have hslow : run.amo s owner 0x2 rs1 0 rd =
      lrSlowpath (s.forest.vm owner).memory.regions
        ⟨(s.forest.vm run.task).hart, s.forest.heap, s.reservations⟩ rs1 0 rd := rfl
  by_cases halign : (s.forest.vm run.task).hart.registers rs1 &&& 3 ≠ 0
  · have hraises : run.amo s owner 0x2 rs1 0 rd = .error .exception := by
      rw [hslow, lrSlowpath, mmuRead32Aligned, if_pos halign]
      rfl
    refine ⟨_, _, _, run.next_amo_raises hlink hb hraises, hs.backed, fun _ _ => rfl, ?_⟩
    rw [Instruction.flatStep, Sandbox.flat_harts, if_pos halign] at hf
    cases hf
    rw [accessed_flat]
    rfl
  · have hread := mmuRead32Aligned_flat halign hs.order hs.backed hr hinside
    generalize hv : BitVec.ofNat 32 ((flatMemory s.forest.heap
      (s.forest.vm owner).memory.regions).read ((s.forest.vm run.task).hart.registers rs1) 4) = v
      at hread
    have hok : run.amo s owner 0x2 rs1 0 rd =
        .ok ⟨(s.forest.vm run.task).hart.setRegister rd v, s.forest.heap, s.reservations.reserve
          ((s.forest.vm run.task).hart.registers rs1) (s.forest.vm run.task).hart⟩ := by
      simp only [hslow, lrSlowpath, hread, Result.ok_bind]
      rfl
    refine ⟨_, _, _, run.next_amo hlink hb hok, hs.backed, fun _ _ => rfl, ?_⟩
    rw [Instruction.flatStep, Sandbox.flat_harts, if_neg halign] at hf
    cases hf
    rw [accessed_flat, proceed_setRegister (hs.zero run.task), ← hv]
    rfl

theorem sc_simulates
    (hlink : getLinkedVm s.forest run.task .vm = .ok owner) (hs : FlatBacked s owner)
    (hr : r ∈ (s.forest.vm owner).memory.regions.pmrOps)
    (hinside : r.ContainsAccess ((s.forest.vm run.task).hart.registers rs1) 4)
    (hb : translate run.address run.instruction =
      .ok ⟨.amo, [indexParam rs1, indexParam rs2, indexParam rd, 0x3]⟩) {f : FlatState}
    (hf : (Instruction.sc rd rs1 rs2).flatStep run.task run.trap (s.flat owner) = some f) :
    Simulates run s owner f := by
  have hslow : run.amo s owner 0x3 rs1 rs2 rd =
      scSlowpath (s.forest.vm owner).memory.regions
        ⟨(s.forest.vm run.task).hart, s.forest.heap, s.reservations⟩ rs1 rs2 rd := rfl
  have hreservations : (s.flat owner).reservations = s.reservations := rfl
  rw [Instruction.flatStep, Sandbox.flat_harts, hreservations] at hf
  cases hfind : s.reservations.find ((s.forest.vm run.task).hart.registers rs1)
      (s.forest.vm run.task).hart with
  | none =>
    have hok : run.amo s owner 0x3 rs1 rs2 rd =
        .ok ⟨(s.forest.vm run.task).hart.setRegister rd 1, s.forest.heap, s.reservations⟩ := by
      simp only [hslow, scSlowpath, hfind]
      rfl
    refine ⟨_, _, _, run.next_amo hlink hb hok, hs.backed, fun _ _ => rfl, ?_⟩
    rw [hfind] at hf
    cases hf
    rw [accessed_flat, proceed_setRegister (hs.zero run.task)]
    rfl
  | some idx =>
    simp only [hfind] at hf
    by_cases halign : (s.forest.vm run.task).hart.registers rs1 &&& 3 ≠ 0
    · have hraises : run.amo s owner 0x3 rs1 rs2 rd = .error .exception := by
        simp only [hslow, scSlowpath, hfind, mmuWrite32Aligned, if_pos halign]
        rfl
      refine ⟨_, _, _, run.next_amo_raises hlink hb hraises, hs.backed, fun _ _ => rfl, ?_⟩
      rw [if_pos halign] at hf
      cases hf
      rw [accessed_flat, amoRaised, if_pos (by decide),
        setRegister_zero_eq_write (hs.zero run.task)]
      rfl
    · obtain ⟨heap, hwrite, hflat, hbacked, hframe⟩ := directWrite_flat hs.order hs.backed hr
        hinside ((s.forest.vm run.task).hart.registers rs2).toNat
      have hok : run.amo s owner 0x3 rs1 rs2 rd =
          .ok ⟨(s.forest.vm run.task).hart.setRegister rd 0, heap, s.reservations.clear idx⟩ := by
        simp only [hslow, scSlowpath, hfind, mmuWrite32Aligned, if_neg halign, hwrite,
          Result.ok_bind]
        rfl
      refine ⟨_, _, _, run.next_amo hlink hb hok, hbacked, hframe, ?_⟩
      rw [if_neg halign] at hf
      cases hf
      rw [accessed_flat, hflat, proceed_setRegister (hs.zero run.task)]
      rfl

/-- One instruction. -/
theorem flatStep_simulates {i : Instruction} {b : TranslatedBlock} {address : Word} {size : Nat}
    {f : FlatState} (hlink : getLinkedVm s.forest run.task .vm = .ok owner)
    (hs : FlatBacked s owner) (hb : translate run.address run.instruction = .ok b)
    (hdecode : decode run.instruction = some i)
    (haccess : i.access (s.forest.vm run.task).hart = some (address, size))
    (hr : r ∈ (s.forest.vm owner).memory.regions.pmrOps) (hinside : r.ContainsAccess address size)
    (hf : i.flatStep run.task run.trap (s.flat owner) = some f) : Simulates run s owner f := by
  have htranslate : translate run.address run.instruction =
      Result.require (i.block run.address) := translate_of_decode hdecode
  cases i with
  | load op rd rs1 offset =>
    cases haccess
    cases hf
    exact load_simulates hlink hs hr hinside htranslate
  | store op rs1 rs2 offset =>
    cases haccess
    cases hf
    exact store_simulates hlink hs hr hinside htranslate
  | lr rd rs1 =>
    cases haccess
    exact lr_simulates hlink hs hr hinside htranslate hf
  | sc rd rs1 rs2 =>
    cases haccess
    exact sc_simulates hlink hs hr hinside htranslate hf
  | amo op rd rs1 rs2 =>
    cases haccess
    cases hfunct5 : op.funct5 with
    | none =>
      -- Without a slow path there is no block.
      rw [Instruction.block, hfunct5, hb] at htranslate
      cases htranslate
    | some funct5 =>
      rw [Instruction.block, hfunct5] at htranslate
      exact amo_simulates hfunct5 hlink hs hr hinside htranslate hf
  | _ => cases haccess

end Blocks

/-! ## Whole runs -/

/-- A table that is sorted and disjoint is in order. -/
theorem RegionTable.SortedDisjoint.inOrder {t : RegionTable} (h : t.SortedDisjoint) :
    RegionsInOrder t.pmrOps := by
  obtain ⟨hnonempty, hsorted, hdisjoint⟩ := h
  refine ⟨hnonempty, (hsorted.and hdisjoint).imp_of_mem fun {a b} ha hb hab => ?_⟩
  obtain ⟨hlow, hnot⟩ := hab
  have hb' := hnonempty b hb
  by_contra hover
  exact hnot b.addrLow ⟨⟨by bv_omega, by bv_omega⟩, ⟨BitVec.le_refl _, hb'⟩⟩

/-- What the instructions leave of a sandbox, besides the bytes, the harts and the
reservations. -/
structure SameMemory (s s' : Sandbox) (owner : TaskId) : Prop where
  regions : (s'.forest.vm owner).memory.regions = (s.forest.vm owner).memory.regions
  links : ∀ t, getLinkedVm s'.forest t .vm = getLinkedVm s.forest t .vm
  /-- The buffers of other memories. -/
  others : ∀ p, (∀ r ∈ (s.forest.vm owner).memory.regions.pmrOps, r.hostBase ≠ some p) →
    s'.forest.heap p = s.forest.heap p

/-- Guest memory is a flat byte map.  Whatever tasks share a memory with a sorted and
disjoint table whose regions have buffers of their own, a run of their loads, stores and
atomic operations inside the regions is one on the byte map: the instructions return, and
they leave the bytes, the harts and the reservations of that run, and nothing else
changes. -/
theorem guestMemory_flat {s : Sandbox} {owner : TaskId} {runs : List InstructionRun}
    {f : FlatState} (hsorted : (s.forest.vm owner).memory.regions.SortedDisjoint)
    (hbacked : SeparatelyBacked s.forest.heap (s.forest.vm owner).memory.regions)
    (h0 : ∀ t, (s.forest.vm t).hart.registers 0 = 0)
    (hlinks : ∀ run ∈ runs, getLinkedVm s.forest run.task .vm = .ok owner)
    (hruns : FlatRun (s.forest.vm owner).memory.regions (s.flat owner) runs f) :
    ∃ s', runs.foldlM (fun s run => run.next s) s = .ok s' ∧ s'.flat owner = f ∧
      SameMemory s s' owner := by
  induction runs generalizing s with
  | nil =>
    cases hruns
    exact ⟨s, rfl, rfl, rfl, fun _ => rfl, fun _ _ => rfl⟩
  | cons run runs ih =>
    cases hruns with
    | cons hb hdecode haccess hr hinside hf hruns =>
      have hs : FlatBacked s owner := ⟨hsorted.inOrder, hbacked, h0⟩
      obtain ⟨hlink, hrest⟩ := List.forall_mem_cons.mp hlinks
      obtain ⟨hart, heap, reservations, hnext, hbacked', hframe, hflat⟩ :=
        flatStep_simulates hlink hs hb hdecode haccess hr hinside hf
      have hmemory : ((s.accessed run.task hart heap reservations).forest.vm owner).memory =
          (s.forest.vm owner).memory := accessed_vm Vm.memory (fun _ _ => rfl) owner
      obtain ⟨s', hrun, hs', hsame⟩ := ih (s := s.accessed run.task hart heap reservations)
        (by rwa [hmemory]) (by rwa [hmemory]) (run.next_zeroHarts h0 hnext)
        (fun u hu => by rw [accessed_getLinkedVm]; exact hrest u hu)
        (by rwa [hmemory, hflat])
      refine ⟨s', by rw [List.foldlM_cons, hnext]; exact hrun, hs', ?_, ?_, ?_⟩
      · rw [hsame.regions, hmemory]
      · intro t
        rw [hsame.links, accessed_getLinkedVm]
      · intro p hp
        rw [hsame.others p (by rwa [hmemory])]
        exact hframe p hp

/-- One task with a region of 16 bytes, `x1` at an odd address of it and `x2` a byte with
its sign. -/
def smallSandbox : Sandbox where
  forest :=
    { vm := fun _ => { Vm.zero with
        hart := ((Hart.initial 0).setRegister 1 0x1003).setRegister 2 0x12345680
        memory := ⟨⟨[⟨0x1000, 0x1010, 6, some 0⟩], []⟩, none, none⟩ }
      nrTasks := 1
      gpidCounter := 2
      heap := fun p => if p = 0 then some ⟨16, fun _ => 0xff⟩ else none }
  reservations := .initial
  exited := []

/-- `sw x2, 0(x1)`, `lh x3, 1(x1)` and `lb x4, 0(x1)`. -/
def smallRuns : List InstructionRun :=
  [firstTaskRuns 0x0020a023, firstTaskRuns 0x00109183, firstTaskRuns 0x00008203]

/-- A word is stored, and a half-word and a byte inside it are loaded with their signs. -/
theorem guestMemory_flat_overlap :
    ∃ s', smallRuns.foldlM (fun s run => run.next s) smallSandbox = .ok s' ∧
      ((s'.flat 0).harts 0).registers 3 = 0x3456 ∧
      ((s'.flat 0).harts 0).registers 4 = 0xffffff80 ∧
      (s'.flat 0).memory 0x1002 = 0xff ∧ (s'.flat 0).memory 0x1006 = 0x12 := by
  have hbacked : SeparatelyBacked smallSandbox.forest.heap
      (smallSandbox.forest.vm 0).memory.regions := by
    constructor
    · intro r hr
      obtain rfl := List.mem_singleton.mp hr
      exact ⟨0, _, rfl, rfl, rfl⟩
    · intro r hr r' hr' _
      rw [List.mem_singleton.mp hr, List.mem_singleton.mp hr']
  have hsorted : (smallSandbox.forest.vm 0).memory.regions.SortedDisjoint := by
    refine ⟨?_, List.pairwise_singleton .., List.pairwise_singleton ..⟩
    intro r hr
    obtain rfl := List.mem_singleton.mp hr
    decide
  have hlinks : ∀ run ∈ smallRuns, getLinkedVm smallSandbox.forest run.task .vm = .ok 0 := by
    simp only [smallRuns, List.forall_mem_cons]
    exact ⟨rfl, rfl, rfl, fun _ h => absurd h List.not_mem_nil⟩
  have hmem : (⟨0x1000, 0x1010, 6, some 0⟩ : PmRegion) ∈
      (smallSandbox.forest.vm 0).memory.regions.pmrOps := List.mem_singleton_self _
  have hruns : FlatRun (smallSandbox.forest.vm 0).memory.regions (smallSandbox.flat 0)
      smallRuns _ :=
    .cons rfl rfl rfl hmem (by decide : PmRegion.ContainsAccess _ 0x1003 4) rfl
      (.cons rfl rfl rfl hmem (by decide : PmRegion.ContainsAccess _ 0x1004 2) rfl
        (.cons rfl rfl rfl hmem (by decide : PmRegion.ContainsAccess _ 0x1003 1) rfl (.nil _)))
  obtain ⟨s', hrun, hflat, -⟩ :=
    guestMemory_flat hsorted hbacked (fun _ => rfl) hlinks hruns
  refine ⟨s', hrun, ?_⟩
  rw [hflat]
  decide +kernel

end Hyrule
