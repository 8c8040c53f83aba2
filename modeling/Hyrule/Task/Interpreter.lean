import Hyrule.Cache.Prefetch
import Hyrule.Cpu.MulDiv
import Hyrule.Task.GuestMemory

/-!
# Running a guest as an interpreter would

The instruction set as a machine: a task fetches the word at its pc from the byte
map, decodes it and steps.  `Instruction.isaStep` puts together the effects on the
registers, on memory, and the products and quotients.  A system call is no step of
this machine.

The sandbox does the same with the block that it translates from the word.  Where
an instruction is `Served`, that is, its accesses stay inside regions, its atomic
operation has a slow path and its division is not left to the host, a run of the
machine is one of the sandbox (`interpreter_simulated`).
-/

namespace Hyrule

open Lib Lib.X86 Riscv

/-! ## The machine -/

/-- A task executes an instruction, other than a system call. -/
def Riscv.Instruction.isaStep (t : TaskId) (trap : Word) (s : FlatState) (i : Instruction) :
    Option FlatState :=
  match i with
  | .mul op rd rs1 rs2 =>
      let hart := s.harts t
      let value := op.eval (hart.registers rs1) (hart.registers rs2)
      some (s.setHart t (writeNext hart rd value))
  | .fence | .fenceI => some (s.setHart t { s.harts t with pc := (s.harts t).pc + 4 })
  | .load .. | .store .. | .lr .. | .sc .. | .amo .. => i.flatStep t trap s
  | _ => (i.step (s.harts t)).map (s.setHart t)

/-- The word at the pc of a task. -/
def FlatState.fetch (s : FlatState) (t : TaskId) : Word :=
  BitVec.ofNat 32 (s.memory.read (s.harts t).pc 4)

/-- A task fetches, decodes and executes an instruction. -/
def FlatState.interpret (s : FlatState) (t : TaskId) (trap : Word) : Option FlatState :=
  (decode (s.fetch t)).bind (·.isaStep t trap s)

/-- The first byte and the bytes from it on lie in a region. -/
def RegionTable.Holds (regions : RegionTable) (address : Word) (size : Nat) : Prop :=
  ∃ r ∈ regions.pmrOps, r.ContainsAccess address size

/-- The sandbox serves an instruction of a task. -/
structure Served (regions : RegionTable) (s : FlatState) (t : TaskId) (i : Instruction) :
    Prop where
  fetch : regions.Holds (s.harts t).pc 4
  access : ∀ address size, i.access (s.harts t) = some (address, size) →
    regions.Holds address size
  /-- There is a template for it. -/
  template : ∃ b, i.block (s.harts t).pc = some b
  division : ∀ op rd rs1 rs2, i = .mul op rd rs1 rs2 →
    ¬ op.LeftToHost ((s.harts t).registers rs1) ((s.harts t).registers rs2)

/-! ## One instruction -/

section Simulation

variable {s : Sandbox} {run : InstructionRun} {owner : TaskId} {i : Instruction}

/-- A block that changes only the hart of its task. -/
theorem simulates_of_hart (hs : FlatBacked s owner) {b : TranslatedBlock} {m : Machine Sandbox}
    (hb : translate run.address run.instruction = .ok b)
    (hruns : RunsTo run.base (sandboxCallbacks run.task run.host) b.params b.template.code
      (run.entry s) m) (hworld : m.world = s) :
    Simulates run s owner ((s.flat owner).setHart run.task m.hart) := by
  refine ⟨m.hart, s.forest.heap, s.reservations, ?_, hs.backed, fun _ _ => rfl, accessed_flat⟩
  rw [run.next_of_runsTo hb hruns, hworld]
  rfl

theorem step_simulates {hart' : Hart} (hs : FlatBacked s owner)
    (haddress : run.address = (s.forest.vm run.task).hart.pc)
    (hdecode : decode run.instruction = some i)
    (hstep : i.step (s.forest.vm run.task).hart = some hart') :
    Simulates run s owner ((s.flat owner).setHart run.task hart') := by
  obtain ⟨b, hb⟩ := block_of_step (s.forest.vm run.task).hart.pc hstep
  have htranslate : translate run.address run.instruction = .ok b := by
    rw [translate_of_decode hdecode, haddress, hb]
    rfl
  obtain ⟨m, hruns, rfl, hworld⟩ := block_refines (sandboxCallbacks run.task run.host) hb hstep
    (run.entry_entered s) (hs.zero run.task)
  exact simulates_of_hart hs htranslate hruns hworld

theorem mul_simulates {op : MulOp} {rd rs1 rs2 : RegisterIndex} (hs : FlatBacked s owner)
    (hdecode : decode run.instruction = some (.mul op rd rs1 rs2))
    (hleft : ¬ op.LeftToHost ((s.forest.vm run.task).hart.registers rs1)
      ((s.forest.vm run.task).hart.registers rs2)) :
    Simulates run s owner ((s.flat owner).setHart run.task
      (writeNext (s.forest.vm run.task).hart rd (op.eval
        ((s.forest.vm run.task).hart.registers rs1)
        ((s.forest.vm run.task).hart.registers rs2)))) := by
  have hentered := run.entry_entered s
  have hruns : RunsTo run.base (sandboxCallbacks run.task run.host) (registerParams rd rs1 rs2)
      op.template.code (run.entry s) (withResult (run.entry s).mem rd rs1 rs2
        (op.eval ((s.forest.vm run.task).hart.registers rs1)
          ((s.forest.vm run.task).hart.registers rs2))) := by
    by_cases hop : op.IsMultiplication
    · exact mul_runs hop hentered
    · exact div_runs hop hentered hleft
  have hsim := simulates_of_hart hs (translate_mul hdecode run.address) hruns rfl
  rwa [show (withResult (run.entry s).mem rd rs1 rs2 _).hart = _ from
    proceed_setRegister (hs.zero run.task)] at hsim

/-- The block of `fence`. -/
theorem InstructionRun.runs_fence (run : InstructionRun) (s : Sandbox) (params : List Word) :
    RunsTo run.base (sandboxCallbacks run.task run.host) params Template.fence.code (run.entry s)
      ((run.entry s).mem.withHart
        { (s.forest.vm run.task).hart with pc := (s.forest.vm run.task).hart.pc + 4 }) :=
  ⟨_, exec_proceedToNextInstruction (run.entry_entered s).r14, rfl, run.entry_entered s⟩

/-- The block of `fence.i`, behind the call of `flush_translation_cache`. -/
theorem InstructionRun.runs_fenceI (run : InstructionRun) (s : Sandbox) (params : List Word) :
    RunsTo run.base (sandboxCallbacks run.task run.host) params Template.fenceI.code (run.entry s)
      ((run.entry s).mem.withHart
        { (s.forest.vm run.task).hart with pc := (s.forest.vm run.task).hart.pc + 4 }) := by
  have hentered := run.entry_entered s
  have hmoved : Entered run.base ((run.entry s).setQuad .rdi run.base).regs := by
    constructor <;> simp [hentered.r15, hentered.r14, hentered.r12]
  have hcode : Template.fenceI.code = [.movq .r12 .rdi] ++ (callC .flushTranslationCache ++
      proceedToNextInstruction) := rfl
  have hmove : exec (hartBus run.base (sandboxCallbacks run.task run.host)) params
      [.movq .r12 .rdi] (run.entry s, .run) = .ok ((run.entry s).setQuad .rdi run.base, .run) :=
    rfl
  rw [hcode]
  refine .seq hmove (.seq (exec_callC rfl) ?_)
  exact ⟨_, exec_proceedToNextInstruction hmoved.r14, rfl, hmoved.keptByCall run.host.clobbered⟩

/-- The block of a served instruction leaves what the instruction does. -/
theorem isaStep_simulates {f : FlatState} (hlink : getLinkedVm s.forest run.task .vm = .ok owner)
    (hs : FlatBacked s owner) (haddress : run.address = (s.forest.vm run.task).hart.pc)
    (hdecode : decode run.instruction = some i)
    (hserved : Served (s.forest.vm owner).memory.regions (s.flat owner) run.task i)
    (hf : i.isaStep run.task run.trap (s.flat owner) = some f) : Simulates run s owner f := by
  obtain ⟨b, hb⟩ := hserved.template
  have htranslate : translate run.address run.instruction = .ok b := by
    rw [translate_of_decode hdecode, haddress]
    exact Result.require_eq_ok.mpr hb
  have hmemory : ∀ {address size}, i.access (s.forest.vm run.task).hart = some (address, size) →
      i.flatStep run.task run.trap (s.flat owner) = some f → Simulates run s owner f := by
    intro address size haccess hf
    obtain ⟨r, hr, hinside⟩ := hserved.access address size haccess
    exact flatStep_simulates hlink hs htranslate hdecode haccess hr hinside hf
  cases i with
  | mul op rd rs1 rs2 =>
    cases hf
    exact mul_simulates hs hdecode (hserved.division op rd rs1 rs2 rfl)
  | fence =>
    cases hf
    exact simulates_of_hart hs (translate_of_decode hdecode) (run.runs_fence s _) rfl
  | fenceI =>
    cases hf
    exact simulates_of_hart hs (translate_of_decode hdecode) (run.runs_fenceI s _) rfl
  | load | store | lr | sc | amo => exact hmemory rfl hf
  | ecall | ebreak => cases hf
  | lui | auipc | jal | jalr | branch | opImm | shiftImm | opReg | shift =>
    cases hf
    exact step_simulates hs haddress hdecode rfl

end Simulation

/-! ## Whole runs -/

/-- `mmu_instruction_read32` at the pc of a task, in machine mode. -/
def Sandbox.fetch (s : Sandbox) (t : TaskId) : Result Word := do
  return BitVec.ofNat 32 (← s.read t (s.forest.vm t).hart.pc 4)

/-- A task runs the block of the word at its pc. -/
def InstructionRun.fetchNext (run : InstructionRun) (s : Sandbox) :
    Except (Trap Fault) Sandbox := do
  let instruction ← lift (s.fetch run.task)
  { run with address := (s.forest.vm run.task).hart.pc, instruction }.next s

/-- A run of the machine whose instructions the sandbox serves. -/
inductive IsaRun (regions : RegionTable) : FlatState → List InstructionRun → FlatState → Prop
  | nil (s : FlatState) : IsaRun regions s [] s
  | cons {s s' s'' : FlatState} {run : InstructionRun} {runs : List InstructionRun}
      {i : Instruction} : decode (s.fetch run.task) = some i → Served regions s run.task i →
      s.interpret run.task run.trap = some s' → IsaRun regions s' runs s'' →
      IsaRun regions s (run :: runs) s''

theorem Sandbox.fetch_flat {s : Sandbox} {owner t : TaskId}
    (hlink : getLinkedVm s.forest t .vm = .ok owner) (hs : FlatBacked s owner)
    (hholds : (s.forest.vm owner).memory.regions.Holds (s.forest.vm t).hart.pc 4) :
    s.fetch t = .ok ((s.flat owner).fetch t) := by
  obtain ⟨r, hr, hinside⟩ := hholds
  rw [Sandbox.fetch, Sandbox.read, hlink, Result.ok_bind,
    directRead_flat hs.order hs.backed hr hinside]
  rfl

/-- One served instruction. -/
theorem fetchNext_simulates {s : Sandbox} {run : InstructionRun} {owner : TaskId} {i : Instruction}
    {f : FlatState} (hlink : getLinkedVm s.forest run.task .vm = .ok owner)
    (hs : FlatBacked s owner) (hdecode : decode ((s.flat owner).fetch run.task) = some i)
    (hserved : Served (s.forest.vm owner).memory.regions (s.flat owner) run.task i)
    (hf : (s.flat owner).interpret run.task run.trap = some f) :
    ∃ hart heap reservations, run.fetchNext s = .ok (s.accessed run.task hart heap reservations) ∧
      SeparatelyBacked heap (s.forest.vm owner).memory.regions ∧
      (∀ p, (∀ r ∈ (s.forest.vm owner).memory.regions.pmrOps, r.hostBase ≠ some p) →
        heap p = s.forest.heap p) ∧
      (s.accessed run.task hart heap reservations).flat owner = f ∧
      (s.accessed run.task hart heap reservations).ZeroHarts := by
  rw [FlatState.interpret, hdecode] at hf
  let fetched : InstructionRun := { run with
    address := (s.forest.vm run.task).hart.pc, instruction := (s.flat owner).fetch run.task }
  have hsim : Simulates fetched s owner f := isaStep_simulates hlink hs rfl hdecode hserved hf
  obtain ⟨hart, heap, reservations, hnext, hbacked, hframe, hflat⟩ := hsim
  refine ⟨hart, heap, reservations, ?_, hbacked, hframe, hflat,
    InstructionRun.next_zeroHarts hs.zero hnext⟩
  rw [InstructionRun.fetchNext, Sandbox.fetch_flat hlink hs hserved.fetch]
  exact hnext

/-- Tasks that share a memory run as the instruction set says.  Whatever their order,
a run of the machine that fetches, decodes and executes is a run of the blocks that the
sandbox translates from the words at their pcs: every block runs to its end, and it
leaves the bytes, the registers, the pcs and the reservations of the machine. -/
theorem interpreter_simulated {s : Sandbox} {owner : TaskId} {runs : List InstructionRun}
    {f : FlatState} (hsorted : (s.forest.vm owner).memory.regions.SortedDisjoint)
    (hbacked : SeparatelyBacked s.forest.heap (s.forest.vm owner).memory.regions)
    (h0 : ∀ t, (s.forest.vm t).hart.registers 0 = 0)
    (hlinks : ∀ run ∈ runs, getLinkedVm s.forest run.task .vm = .ok owner)
    (hruns : IsaRun (s.forest.vm owner).memory.regions (s.flat owner) runs f) :
    ∃ s', runs.foldlM (fun s run => run.fetchNext s) s = .ok s' ∧ s'.flat owner = f ∧
      SameMemory s s' owner := by
  induction runs generalizing s with
  | nil =>
    cases hruns
    exact ⟨s, rfl, rfl, rfl, fun _ => rfl, fun _ _ => rfl⟩
  | cons run runs ih =>
    cases hruns with
    | cons hdecode hserved hf hruns =>
      obtain ⟨hlink, hrest⟩ := List.forall_mem_cons.mp hlinks
      obtain ⟨hart, heap, reservations, hnext, hbacked', hframe, hflat, hzero⟩ :=
        fetchNext_simulates hlink ⟨hsorted.inOrder, hbacked, h0⟩ hdecode hserved hf
      have hmemory : ((s.accessed run.task hart heap reservations).forest.vm owner).memory =
          (s.forest.vm owner).memory := accessed_vm Vm.memory (fun _ _ => rfl) owner
      obtain ⟨s', hrun, hs', hsame⟩ := ih (s := s.accessed run.task hart heap reservations)
        (by rwa [hmemory]) (by rwa [hmemory]) hzero
        (fun u hu => by rw [accessed_getLinkedVm]; exact hrest u hu) (by rwa [hmemory, hflat])
      refine ⟨s', by rw [List.foldlM_cons, hnext]; exact hrun, hs', ?_, ?_, ?_⟩
      · rw [hsame.regions, hmemory]
      · intro t
        rw [hsame.links, accessed_getLinkedVm]
      · intro p hp
        rw [hsame.others p (by rwa [hmemory])]
        exact hframe p hp

/-- One task at `addi x1, x0, -3`, `mul x3, x1, x1`, `sw x3, 24(x2)` and a jump back, with
`x2` at the first of them. -/
def squareSandbox : Sandbox where
  forest :=
    { vm := fun _ => { Vm.zero with
        hart := { (Hart.initial 0).setRegister 2 0x1000 with pc := 0x1000 }
        memory := ⟨⟨[⟨0x1000, 0x1020, 6, some 0⟩], []⟩, none, none⟩ }
      nrTasks := 1
      gpidCounter := 2
      heap := fun p => if p = 0 then
        some ⟨32, paramByte [0xffd00093, 0x021081b3, 0x00312c23, 0xff5ff06f]⟩ else none }
  reservations := .initial
  exited := []

theorem squareSandbox_backed : SeparatelyBacked squareSandbox.forest.heap
    (squareSandbox.forest.vm 0).memory.regions := by
  constructor
  · intro r hr
    obtain rfl := List.mem_singleton.mp hr
    exact ⟨0, _, rfl, rfl, rfl⟩
  · intro r hr r' hr' _
    rw [List.mem_singleton.mp hr, List.mem_singleton.mp hr']

theorem squareSandbox_sorted : (squareSandbox.forest.vm 0).memory.regions.SortedDisjoint := by
  refine ⟨?_, List.pairwise_singleton .., List.pairwise_singleton ..⟩
  intro r hr
  obtain rfl := List.mem_singleton.mp hr
  decide

theorem squareSandbox_holds {address : Word} {size : Nat}
    (h : PmRegion.ContainsAccess ⟨0x1000, 0x1020, 6, some 0⟩ address size) :
    (squareSandbox.forest.vm 0).memory.regions.Holds address size :=
  ⟨_, List.mem_singleton_self _, h⟩

/-- The square is stored, and the pc is behind the store. -/
theorem interpreter_simulated_square :
    ∃ s', (List.replicate 3 (firstTaskRuns 0)).foldlM (fun s run => run.fetchNext s)
        squareSandbox = .ok s' ∧
      (s'.flat 0).memory.read 0x1018 4 = 9 ∧ ((s'.flat 0).harts 0).pc = 0x100c := by
  let s₀ := squareSandbox.flat 0
  let s₁ := s₀.setHart 0 { write (s₀.harts 0) 1 (ImmOp.addi.eval ((s₀.harts 0).registers 0)
    0xfffffffd) with pc := (s₀.harts 0).pc + 4 }
  let s₂ := s₁.setHart 0 (writeNext (s₁.harts 0) 3 (MulOp.mul.eval ((s₁.harts 0).registers 1)
    ((s₁.harts 0).registers 1)))
  have hfirst : decode (s₀.fetch 0) = some (.opImm .addi 1 0 0xfffffffd) := by decide +kernel
  have hsecond : decode (s₁.fetch 0) = some (.mul .mul 3 1 1) := by decide +kernel
  have hthird : decode (s₂.fetch 0) = some (.store .sw 2 3 24) := by decide +kernel
  have hpc₁ : (s₁.harts 0).pc = 0x1004 := by decide
  have hpc₂ : (s₂.harts 0).pc = 0x1008 := by decide
  have haddress : (s₂.harts 0).registers 2 + 24 = 0x1018 := by decide
  let regions := (squareSandbox.forest.vm 0).memory.regions
  have haddi : Served regions s₀ 0 (.opImm .addi 1 0 0xfffffffd) := by
    refine ⟨squareSandbox_holds (by decide), ?_, ⟨_, rfl⟩, ?_⟩
    · intro _ _ h
      cases h
    · intro _ _ _ _ h
      cases h
  have hmul : Served regions s₁ 0 (.mul .mul 3 1 1) := by
    refine ⟨?_, ?_, ⟨_, rfl⟩, ?_⟩
    · rw [hpc₁]
      exact squareSandbox_holds (by decide)
    · intro _ _ h
      cases h
    · intro op rd rs1 rs2 h
      cases h
      exact id
  have hsw : Served regions s₂ 0 (.store .sw 2 3 24) := by
    refine ⟨?_, ?_, ⟨_, rfl⟩, ?_⟩
    · rw [hpc₂]
      exact squareSandbox_holds (by decide)
    · intro _ _ h
      cases h
      rw [haddress]
      exact squareSandbox_holds (by decide)
    · intro _ _ _ _ h
      cases h
  have hstep₁ : s₀.interpret 0 0 = some s₁ := by
    rw [FlatState.interpret, hfirst]
    rfl
  have hstep₂ : s₁.interpret 0 0 = some s₂ := by
    rw [FlatState.interpret, hsecond]
    rfl
  obtain ⟨s₃, hstep₃⟩ : ∃ s₃, s₂.interpret 0 0 = some s₃ := by
    rw [FlatState.interpret, hthird]
    exact ⟨_, rfl⟩
  have hruns : IsaRun regions s₀ (List.replicate 3 (firstTaskRuns 0)) s₃ :=
    .cons hfirst haddi hstep₁ (.cons hsecond hmul hstep₂ (.cons hthird hsw hstep₃ (.nil _)))
  obtain ⟨s', hrun, hflat, -⟩ := interpreter_simulated squareSandbox_sorted squareSandbox_backed
    (fun _ => rfl) (fun run hrun => by rw [List.eq_of_mem_replicate hrun]; rfl) hruns
  refine ⟨s', hrun, ?_⟩
  rw [FlatState.interpret, hthird] at hstep₃
  cases hstep₃
  rw [hflat]
  decide +kernel

end Hyrule
