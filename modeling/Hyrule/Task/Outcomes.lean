import Hyrule.Task.CloneRegisters
import Hyrule.Task.Interpreter

/-!
# What the block of an instruction leaves

The block of a legal instruction, other than a system call, that ran without a fault.
It changes the hart of its task, the heap and the reservations, and nothing else of
the sandbox.  A block that falls through to the one behind it has moved the pc to the
next instruction, unless it was left for an exception (`legal_outcome`).

Nothing is asked of the memory here: a load or a store may go to any region or to none.
-/

namespace Hyrule

open Lib Lib.X86 Riscv

/-! ## Calls of the memory blocks -/

section Called

variable {ω : Type} {base : Quad} {callbacks : Callbacks ω} {s : X86.State (Machine ω)}
  {f : Callback} {rd rs1 rs2 : RegisterIndex} {offset : Word}

/-- A call that the code came behind has returned or left the block. -/
theorem callC_called {params : List Word} {code : HostCode}
    {sc : X86.State (Machine ω) × Control}
    (h : exec (hartBus base callbacks) params (callC f ++ code) (s, .run) = .ok sc) :
    ∃ called, callbacks f s.regs s.mem = .ok called := by
  rw [exec_append] at h
  obtain ⟨sc₁, hcall, -⟩ := bind_eq_ok.mp h
  obtain ⟨sc₂, hstep, -⟩ := bind_eq_ok.mp hcall
  obtain ⟨called, hcalled, -⟩ := bind_eq_ok.mp hstep
  exact ⟨called, lift_eq_ok hcalled⟩

/-- The block of a load has called its function. -/
theorem loadCode_called {extend : HostCode} {sc : X86.State (Machine ω) × Control}
    (hs : Entered base s.regs)
    (h : exec (hartBus base callbacks) [offset, indexParam rs1, indexParam rd] (loadCode f extend)
      (s, .run) = .ok sc) :
    ∃ args called, (args .rsi).setWidth 32 = s.mem.hart.registers rs1 + offset ∧
      callbacks f args (s.mem.readOperand rs1) = .ok called := by
  simp only [loadCode, List.append_assoc] at h
  rw [exec_append, exec_readRegister (i := rs1) rfl hs.r15 (by decide), ok_bind, exec_append] at h
  obtain ⟨sc₁, hmoves, h⟩ := bind_eq_ok.mp h
  cases hmoves
  obtain ⟨called, hcalled⟩ := callC_called h
  exact ⟨_, called, by simp [Alu.eval], hcalled⟩

/-- The block of a store has called its function. -/
theorem storeCode_called {mask : HostCode} {change : Quad → Word}
    {sc : X86.State (Machine ω) × Control} (hs : Entered base s.regs)
    (hmask : Changes base callbacks [offset, indexParam rs1, indexParam rs2] mask .rdx change)
    (h : exec (hartBus base callbacks) [offset, indexParam rs1, indexParam rs2] (storeCode f mask)
      (s, .run) = .ok sc) :
    ∃ args called, (args .rsi).setWidth 32 = s.mem.hart.registers rs1 + offset ∧
      (args .rdx).setWidth 32 = change ((s.mem.hart.registers rs2).setWidth 64) ∧
      callbacks f args ((s.mem.readOperand rs1).readOperand rs2) = .ok called := by
  simp only [storeCode, List.append_assoc] at h
  rw [exec_append, exec_readRegister (i := rs1) rfl hs.r15 (by decide), ok_bind, exec_append] at h
  obtain ⟨sc₁, hmoves, h⟩ := bind_eq_ok.mp h
  cases hmoves
  rw [exec_append, exec_readRegister (i := rs2) rfl (by simp [hs.r15]) (by decide), ok_bind,
    exec_append] at h
  obtain ⟨sc₂, hmasked, h⟩ := bind_eq_ok.mp h
  obtain ⟨s₂, hexec, hmem, hregs, hlong⟩ := hmask _
  rw [hexec] at hmasked
  cases hmasked
  rw [exec_append] at h
  obtain ⟨sc₃, hmove, h⟩ := bind_eq_ok.mp h
  cases hmove
  obtain ⟨called, hcalled⟩ := callC_called h
  refine ⟨(s₂.setQuad .rdi (s₂.regs .r12)).regs, called, ?_, ?_, ?_⟩
  · simp [hregs, Alu.eval]
  · simpa [State.long] using hlong
  · simpa [hmem] using hcalled

end Called

/-! ## The instructions -/

/-- What a block leaves of the sandbox. -/
structure BlockOutcome (run : InstructionRun) (s : Sandbox) (b : TranslatedBlock)
    (x : X86.State (Machine Sandbox)) (c : Control) : Prop where
  world : ∃ heap reservations,
    x.mem.world = { s with forest := { s.forest with heap }, reservations }
  proceeds : b.template.fallsThrough = true → c ≠ .left →
    c = .run ∧ x.mem.hart.pc = (s.forest.vm run.task).hart.pc + 4

section Outcomes

variable {s : Sandbox} {run : InstructionRun} {b : TranslatedBlock}
  {x : X86.State (Machine Sandbox)} {c : Control}

/-- A block runs to one end. -/
theorem InstructionRun.execute_eq {m : Machine Sandbox}
    (hexec : run.execute s b b.template.code = .ok (x, c))
    (h : RunsTo run.base (sandboxCallbacks run.task run.host) b.params b.template.code
      (run.entry s) m) : c = .run ∧ x.mem = m := by
  obtain ⟨s', hexec', rfl, -⟩ := h
  rw [InstructionRun.execute, hexec'] at hexec
  cases hexec
  exact ⟨rfl, rfl⟩

/-- A block that runs to its end with the pc behind the instruction. -/
theorem BlockOutcome.of_runsTo {m : Machine Sandbox} {heap : HostHeap}
    {reservations : Reservations} (hexec : run.execute s b b.template.code = .ok (x, c))
    (h : RunsTo run.base (sandboxCallbacks run.task run.host) b.params b.template.code
      (run.entry s) m)
    (hworld : m.world = { s with forest := { s.forest with heap }, reservations })
    (hpc : b.template.fallsThrough = true → m.hart.pc = (s.forest.vm run.task).hart.pc + 4) :
    BlockOutcome run s b x c := by
  obtain ⟨rfl, rfl⟩ := run.execute_eq hexec h
  exact ⟨⟨heap, reservations, hworld⟩, fun hfalls _ => ⟨rfl, hpc hfalls⟩⟩

/-- An instruction whose block falls through moves on to the next one. -/
theorem step_pc {i : Instruction} {hart hart' : Hart} {address : Word}
    (hstep : i.step hart = some hart') (hb : i.block address = some b)
    (hfalls : b.template.fallsThrough = true) : hart'.pc = hart.pc + 4 := by
  cases i with
  | jal | jalr =>
    cases hb
    cases hfalls
  | branch op rs1 rs2 offset =>
    cases hb
    cases op with
    | beq | bne | blt | bge | bltu | bgeu => cases hfalls
  | lui | auipc | opImm | shiftImm | opReg | shift =>
    cases hstep
    rfl
  | load | store | mul | lr | sc | amo | fence | fenceI | ecall | ebreak => cases hstep

theorem load_outcome {op : LoadOp} {rd rs1 : RegisterIndex} {offset : Word}
    (hexec : run.execute s ⟨op.template, [offset, indexParam rs1, indexParam rd]⟩
      op.template.code = .ok (x, c)) :
    BlockOutcome run s ⟨op.template, [offset, indexParam rs1, indexParam rd]⟩ x c := by
  have hcode := hexec
  rw [op.template_code] at hcode
  obtain ⟨args, called, hargs, hcall⟩ := loadCode_called (run.entry_entered s) hcode
  rw [sandboxCallbacks_load] at hcall
  obtain ⟨v, hread, -⟩ := Result.bind_eq_ok.mp hcall
  have hcalls : ∀ args : Reg → Quad,
      (args .rsi).setWidth 32 = (run.entry s).mem.hart.registers rs1 + offset →
      sandboxCallbacks run.task run.host op.callback args ((run.entry s).mem.readOperand rs1) =
        .ok (returnValue run.host (BitVec.ofNat 64 v), (run.entry s).mem.readOperand rs1) := by
    intro args' hargs'
    rw [sandboxCallbacks_load, mmuRead]
    exact Result.bind_eq_ok.mpr ⟨v, by rw [hargs', ← hargs]; exact hread, rfl⟩
  have hextend : Changes run.base (sandboxCallbacks run.task run.host)
      [offset, indexParam rs1, indexParam rd] op.extendCode .rax _ := op.changes
  have hruns := runs_loadCode hextend hcalls (run.entry_entered s)
  rw [← op.template_code] at hruns
  exact .of_runsTo hexec hruns rfl fun _ => rfl

theorem store_outcome {op : StoreOp} {rs1 rs2 : RegisterIndex} {offset : Word}
    (hexec : run.execute s ⟨op.template, [offset, indexParam rs1, indexParam rs2]⟩
      op.template.code = .ok (x, c)) :
    BlockOutcome run s ⟨op.template, [offset, indexParam rs1, indexParam rs2]⟩ x c := by
  have hcode := hexec
  rw [op.template_code] at hcode
  obtain ⟨args, called, haddress, hvalue, hcall⟩ :=
    storeCode_called (run.entry_entered s) op.changes hcode
  rw [sandboxCallbacks_store] at hcall
  obtain ⟨world, hwrite, -⟩ := Result.bind_eq_ok.mp hcall
  have hcalls : ∀ args : Reg → Quad,
      (args .rsi).setWidth 32 = (run.entry s).mem.hart.registers rs1 + offset →
      (args .rdx).setWidth 32 =
        op.masked ((((run.entry s).mem.hart.registers rs2).setWidth 64).setWidth 32) →
      sandboxCallbacks run.task run.host op.callback args
          (((run.entry s).mem.readOperand rs1).readOperand rs2) =
        .ok (.returns run.host.clobbered,
          { ((run.entry s).mem.readOperand rs1).readOperand rs2 with world }) := by
    intro args' haddress' hvalue'
    rw [sandboxCallbacks_store, mmuWrite]
    refine Result.bind_eq_ok.mpr ⟨world, ?_, rfl⟩
    rw [haddress', hvalue', ← haddress, ← hvalue]
    exact hwrite
  have hruns := runs_storeCode op.changes hcalls (run.entry_entered s)
  rw [← op.template_code] at hruns
  obtain ⟨owner, -, hwrite⟩ := Result.bind_eq_ok.mp hwrite
  obtain ⟨heap, -, hwrite⟩ := Result.bind_eq_ok.mp hwrite
  cases hwrite
  exact .of_runsTo hexec hruns rfl fun _ => rfl

/-- The slow paths write the destination register and leave the pc. -/
theorem amoInstructionSlowpath_pc {funct5 : Nat} {t : RegionTable} {a a' : AmoState}
    {rs1 rs2 rd : RegisterIndex} (h : amoInstructionSlowpath funct5 t a rs1 rs2 rd = .ok a') :
    a'.hart.pc = a.hart.pc := by
  have hamo : ∀ {op : Word → Word → Word}, amoSlowpath op t a rs1 rs2 rd = .ok a' →
      a'.hart.pc = a.hart.pc := by
    intro op h
    obtain ⟨old, -, h⟩ := Result.bind_eq_ok.mp h
    obtain ⟨heap, -, h⟩ := Result.bind_eq_ok.mp h
    cases h
    rfl
  unfold amoInstructionSlowpath at h
  split at h
  next => exact hamo h
  next => exact hamo h
  next =>
    obtain ⟨value, -, h⟩ := Result.bind_eq_ok.mp h
    cases h
    rfl
  next =>
    unfold scSlowpath at h
    simp only at h
    split at h
    next =>
      obtain ⟨heap, -, h⟩ := Result.bind_eq_ok.mp h
      cases h
      rfl
    next =>
      cases h
      rfl
  next => exact hamo h
  next => exact hamo h
  next => exact hamo h
  next => exact hamo h
  next => cases h

theorem amo_outcome {funct5 : Word} {rs1 rs2 rd : RegisterIndex}
    (hexec : run.execute s ⟨.amo, [indexParam rs1, indexParam rs2, indexParam rd, funct5]⟩
      amoCode = .ok (x, c)) :
    BlockOutcome run s ⟨.amo, [indexParam rs1, indexParam rs2, indexParam rd, funct5]⟩ x c := by
  obtain ⟨args, called, hargs, hcall⟩ := amoCode_called (run.entry_entered s) hexec
  have hlinked := hcall
  simp only [sandboxCallbacks, amoCallback, hargs.1, hargs.2.1, hargs.2.2.1,
    indexArgument_indexParam, Result.ok_bind] at hlinked
  obtain ⟨owner, hlink, -⟩ := Result.bind_eq_ok.mp hlinked
  replace hlink : getLinkedVm s.forest run.task .vm = .ok owner := hlink
  have hcalls : ∀ args, AmoArguments rs1 rs2 rd funct5 args → _ :=
    fun args hargs => run.amoCallback_eq hlink hargs
  cases hslow : run.amo s owner funct5 rs1 rs2 rd with
  | ok a =>
    simp only [hslow] at hcalls
    have hruns := runs_amoCode hcalls (run.entry_entered s)
    exact .of_runsTo hexec hruns rfl fun _ => congrArg (· + 4) (amoInstructionSlowpath_pc hslow)
  | error e =>
    rw [run.amoCallback_eq hlink hargs] at hcall
    simp only [hslow] at hcall
    split at hcall
    next hok => cases hok
    next he =>
      cases he
      simp only [hslow] at hcalls
      obtain ⟨s', hleft, hmem⟩ := amoCode_leaves hcalls (run.entry_entered s)
      rw [InstructionRun.execute, hleft] at hexec
      cases hexec
      refine ⟨⟨s.forest.heap, s.reservations, ?_⟩, fun _ hc => absurd rfl hc⟩
      rw [hmem]
      exact readAmoOperands_world ..
    next => cases hcall

/-- What the block of a legal instruction leaves, unless it is a system call. -/
theorem legal_outcome {i : Instruction} (hzero : s.ZeroHarts)
    (haddress : run.address = (s.forest.vm run.task).hart.pc)
    (hdecode : decode run.instruction = some i) (hecall : i ≠ .ecall)
    (hb : translate run.address run.instruction = .ok b)
    (hexec : run.execute s b b.template.code = .ok (x, c)) : BlockOutcome run s b x c := by
  have hblock : i.block (s.forest.vm run.task).hart.pc = some b := by
    rw [translate_of_decode hdecode, haddress] at hb
    exact Result.require_eq_ok.mp hb
  have hentered := run.entry_entered s
  have hstepped : ∀ hart', i.step (s.forest.vm run.task).hart = some hart' →
      BlockOutcome run s b x c := by
    intro hart' hstep
    obtain ⟨m, hruns, rfl, hworld⟩ := block_refines (sandboxCallbacks run.task run.host) hblock
      hstep hentered (hzero run.task)
    exact .of_runsTo hexec hruns hworld fun hfalls => step_pc hstep hblock hfalls
  cases i with
  | lui | auipc | jal | jalr | branch | opImm | shiftImm | opReg | shift =>
    exact hstepped _ rfl
  | load op rd rs1 offset =>
    cases hblock
    exact load_outcome hexec
  | store op rs1 rs2 offset =>
    cases hblock
    exact store_outcome hexec
  | mul op rd rs1 rs2 =>
    cases hblock
    by_cases hleft : op.LeftToHost ((s.forest.vm run.task).hart.registers rs1)
        ((s.forest.vm run.task).hart.registers rs2)
    · have htrap : run.execute s ⟨op.template, registerParams rd rs1 rs2⟩ op.template.code =
          .error .divideError := div_traps hentered hleft
      cases hexec.symm.trans htrap
    · by_cases hop : op.IsMultiplication
      · exact .of_runsTo hexec (mul_runs hop hentered) rfl fun _ => rfl
      · exact .of_runsTo hexec (div_runs hop hentered hleft) rfl fun _ => rfl
  | fence =>
    cases hblock
    exact .of_runsTo hexec (run.runs_fence s _) rfl fun _ => rfl
  | fenceI =>
    cases hblock
    exact .of_runsTo hexec (run.runs_fenceI s _) rfl fun _ => rfl
  | lr rd rs1 =>
    cases hblock
    exact amo_outcome hexec
  | sc rd rs1 rs2 =>
    cases hblock
    exact amo_outcome hexec
  | amo op rd rs1 rs2 =>
    obtain ⟨funct5, -, rfl⟩ := Option.map_eq_some_iff.mp hblock
    exact amo_outcome hexec
  | ecall => exact absurd rfl hecall
  | ebreak => cases hblock

end Outcomes

/-! ## System calls -/

/-- The harts of the other tasks stay, but for those that a call writes. -/
structure OtherHarts (t : TaskId) (written : TaskId → Prop) (s s' : Forest) : Prop where
  tasks : s.nrTasks ≤ s'.nrTasks
  harts : ∀ u, u < s.nrTasks → u ≠ t → ¬ written u → (s'.vm u).hart = (s.vm u).hart

section Calls

variable {s s' : Sandbox} {t : TaskId} {host : HostSide} {value : Option Word}
  {written : TaskId → Prop}

theorem OtherHarts.refl (t : TaskId) (written : TaskId → Prop) (s : Forest) :
    OtherHarts t written s s :=
  ⟨Nat.le_refl _, fun _ _ _ _ => rfl⟩

theorem OtherHarts.setVm {s : Forest} {u : TaskId} {vm : Vm} (heap : HostHeap)
    (h : u = t ∨ written u ∨ vm.hart = (s.vm u).hart) :
    OtherHarts t written s { s.setVm u vm with heap } := by
  refine ⟨Nat.le_refl _, fun v _ hv hwritten => ?_⟩
  by_cases hvu : v = u
  · subst hvu
    have hhart := (h.resolve_left hv).resolve_left hwritten
    simpa only [Forest.setVm, Function.update_self] using hhart
  · simp only [Forest.setVm, Function.update_of_ne hvu]

theorem OtherHarts.trans {s s' s'' : Forest} (h : OtherHarts t written s s')
    (h' : OtherHarts t written s' s'') : OtherHarts t written s s'' where
  tasks := Nat.le_trans h.tasks h'.tasks
  harts u hu hne hwritten := by
    rw [h'.harts u (Nat.lt_of_lt_of_le hu h.tasks) hne hwritten, h.harts u hu hne hwritten]

theorem memoryCall_otherHarts
    {call : HostHeap → VirtualMemory → Result (Word × HostHeap × VirtualMemory)}
    (hcall : memoryCall s t call = .ok (value, s')) : OtherHarts t written s.forest s'.forest := by
  obtain ⟨owner, -, hcall⟩ := Result.bind_eq_ok.mp hcall
  obtain ⟨⟨rv, heap, memory⟩, -, hcall⟩ := Result.bind_eq_ok.mp hcall
  cases hcall
  exact .setVm heap (Or.inr (Or.inr rfl))

theorem fileCall_otherHarts {call : FileCall} (hcall : fileCall s t call = .ok (value, s')) :
    OtherHarts t written s.forest s'.forest := by
  obtain ⟨dirsOwner, -, hcall⟩ := Result.bind_eq_ok.mp hcall
  obtain ⟨owner, -, hcall⟩ := Result.bind_eq_ok.mp hcall
  obtain ⟨⟨rv, files⟩, -, hcall⟩ := Result.bind_eq_ok.mp hcall
  cases hcall
  exact .setVm s.forest.heap (Or.inr (Or.inr rfl))

theorem callFnctl_otherHarts {fd cmd : Word}
    (hcall : callFnctl s t host fd cmd = .ok (value, s')) :
    OtherHarts t written s.forest s'.forest := by
  have honHost : fcntlOnHost s t fd host.answer = .ok (value, s') →
      OtherHarts t written s.forest s'.forest := by
    intro hcall
    obtain ⟨owner, -, hcall⟩ := Result.bind_eq_ok.mp hcall
    obtain ⟨bad, -, hcall⟩ := Result.bind_eq_ok.mp hcall
    split at hcall
    next =>
      cases hcall
      exact .refl ..
    next =>
      cases hcall
      exact .refl ..
  unfold callFnctl at hcall
  split at hcall
  next => exact fileCall_otherHarts hcall
  next => exact fileCall_otherHarts hcall
  next => exact honHost hcall
  next => exact honHost hcall
  next => exact honHost hcall
  next =>
    cases hcall
    exact .refl ..

theorem bufferCall_otherHarts (hcall : bufferCall s t host = .ok (value, s')) :
    OtherHarts t written s.forest s'.forest := by
  obtain ⟨forest, hstores, hcall⟩ := Result.bind_eq_ok.mp hcall
  cases hcall
  change OtherHarts t written s.forest forest
  generalize s.forest = first at hstores
  generalize host.stores = stores at hstores
  induction stores generalizing first with
  | nil =>
    cases hstores
    exact .refl ..
  | cons store stores ih =>
    rw [List.foldlM_cons] at hstores
    obtain ⟨forest₁, hstore, hstores⟩ := Result.bind_eq_ok.mp hstores
    simp only [TaskCall.run] at hstore
    obtain ⟨owner, -, hstore⟩ := Result.bind_eq_ok.mp hstore
    obtain ⟨⟨heap, memory⟩, -, hstore⟩ := Result.bind_eq_ok.mp hstore
    cases hstore
    have hfirst : OtherHarts t written first
        { first.setVm owner { first.vm owner with memory } with heap } :=
      .setVm heap (Or.inr (Or.inr rfl))
    exact hfirst.trans (ih _ hstores)

/-- `execve` writes the hart of its caller and that of the task whose memory it uses. -/
theorem callExecve_otherHarts {s s' : Forest} {args : ExecveArgs} {alloc : Allocator}
    {hostFiles : CString → Option (List Byte)}
    (hcall : callExecve s t args alloc hostFiles = .ok s') :
    OtherHarts t (fun u => getLinkedVm s t .vm = .ok u) s s' := by
  obtain ⟨envp, -, hcall⟩ := Result.bind_eq_ok.mp hcall
  obtain ⟨owner, hlink, hcall⟩ := Result.bind_eq_ok.mp hcall
  obtain ⟨s₁, hreclaim, hcall⟩ := Result.bind_eq_ok.mp hcall
  obtain ⟨hostCpath, -, hcall⟩ := Result.bind_eq_ok.mp hcall
  obtain ⟨⟨heap₁, hart₁, memory⟩, -, hcall⟩ := Result.bind_eq_ok.mp hcall
  obtain ⟨⟨heap₂, hart₂⟩, -, hcall⟩ := Result.bind_eq_ok.mp hcall
  cases hcall
  have hreclaimed : OtherHarts t (fun u => getLinkedVm s t .vm = .ok u) s s₁ := by
    unfold reclaimTask at hreclaim
    split at hreclaim
    next =>
      obtain ⟨parent, -, hreclaim⟩ := Result.bind_eq_ok.mp hreclaim
      cases hreclaim
      have hparent : OtherHarts t (fun u => getLinkedVm s t .vm = .ok u) s
          (s.setVm parent (deferenceTask (s.vm parent))) := .setVm s.heap (Or.inr (Or.inr rfl))
      exact hparent.trans (.setVm s.heap (Or.inr (Or.inr rfl)))
    next =>
      cases hmemory : reclaimVirtualMemory s.heap (s.vm owner).memory with
      | mk heap memory =>
        rw [hmemory] at hreclaim
        cases hreclaim
        exact .setVm heap (Or.inr (Or.inr rfl))
  exact hreclaimed.trans ((OtherHarts.setVm s₁.heap (Or.inl rfl)).trans
    (.setVm heap₂ (Or.inr (Or.inl hlink))))

/-- A system call leaves the harts of the other tasks, except that `execve` writes that
of the task whose memory it uses. -/
theorem doSyscall_otherHarts {number : Word} {arg : SyscallArgs}
    (hcall : doSyscall s t host number arg = .ok (value, s')) :
    OtherHarts t (fun u => handlers number = some .execve ∧ getLinkedVm s.forest t .vm = .ok u)
      s.forest s'.forest := by
  obtain ⟨-, -, hcall⟩ := Result.bind_eq_ok.mp hcall
  obtain ⟨handler, hhandler, hcall⟩ := Result.bind_eq_ok.mp hcall
  replace hhandler := Result.require_eq_ok.mp hhandler
  cases handler with
  | clone =>
    obtain ⟨⟨pid, forest⟩, hclone, hcall⟩ := Result.bind_eq_ok.mp hcall
    cases hcall
    obtain hcloned := cloneTask_ok hclone
    refine ⟨?_, fun u hu _ _ => ?_⟩
    · exact hcloned.nrTasks ▸ Nat.le_succ _
    · obtain ⟨refCount, hvm⟩ := hcloned.others u (Nat.ne_of_lt hu)
      exact (congrArg Vm.hart hvm).trans rfl
  | execve =>
    obtain ⟨forest, hexecve, hcall⟩ := Result.bind_eq_ok.mp hcall
    cases hcall
    obtain ⟨htasks, hharts⟩ := callExecve_otherHarts hexecve
    exact ⟨htasks, fun u hu hne hwritten => hharts u hu hne fun hlink => hwritten ⟨hhandler, hlink⟩⟩
  | chdir =>
    obtain ⟨forest, hchdir, hcall⟩ := Result.bind_eq_ok.mp hcall
    cases hcall
    obtain ⟨owner, -, hchdir⟩ := Result.bind_eq_ok.mp hchdir
    obtain ⟨cwd, -, hchdir⟩ := Result.bind_eq_ok.mp hchdir
    cases hchdir
    exact .setVm s.forest.heap (Or.inr (Or.inr rfl))
  | setTidAddress =>
    cases hcall
    exact .setVm s.forest.heap (Or.inl rfl)
  | mmap | munmap | brk =>
    rw [SysHandler.run] at hcall
    exact memoryCall_otherHarts hcall
  | openat | close | dup | dup3 =>
    rw [SysHandler.run] at hcall
    exact fileCall_otherHarts hcall
  | fnctl =>
    rw [SysHandler.run] at hcall
    exact callFnctl_otherHarts hcall
  | getcwd | ioctl | unlinkat | getdents64 | lseek | read | write | writev | sendfile
  | readlinkat | clockGettime | uname | getrlimit | gettimeofday | wait4 | statx =>
    rw [SysHandler.run] at hcall
    exact bufferCall_otherHarts hcall
  | exit | exitGroup | getpid | getppid | getpgid | faccessat | setRobustList | sigaction
  | sigprocmask | getuid | mprotect | madvice | pselect | kill | sysinfo | socket =>
    cases hcall
    exact .refl ..

/-- The block of a legal instruction leaves the harts of the other tasks, but for an
`execve`. -/
theorem legal_otherHarts {run : InstructionRun} {b : TranslatedBlock} {i : Instruction}
    {x : X86.State (Machine Sandbox)} {c : Control} (hzero : s.ZeroHarts)
    (haddress : run.address = (s.forest.vm run.task).hart.pc)
    (hdecode : decode run.instruction = some i)
    (hb : translate run.address run.instruction = .ok b)
    (hexec : run.execute s b b.template.code = .ok (x, c)) :
    OtherHarts run.task (fun u => i = .ecall ∧
        handlers ((s.forest.vm run.task).hart.registers a7) = some .execve ∧
        getLinkedVm s.forest run.task .vm = .ok u)
      s.forest (x.mem.world.setHart run.task x.mem.hart).forest := by
  have hset : ∀ {written : TaskId → Prop} {world : Sandbox} (hart : Hart),
      OtherHarts run.task written s.forest world.forest →
      OtherHarts run.task written s.forest (world.setHart run.task hart).forest :=
    fun {_ world} _ h => h.trans (.setVm world.forest.heap (Or.inl rfl))
  by_cases hecall : i = .ecall
  case neg =>
    obtain ⟨heap, reservations, hworld⟩ :=
      (legal_outcome hzero haddress hdecode hecall hb hexec).world
    refine hset _ ⟨?_, fun u _ _ _ => ?_⟩
    · rw [hworld]
    · rw [hworld]
  subst hecall
  rw [translate_of_decode hdecode] at hb
  cases hb
  have hcalled : ∀ {outcome m}, ecallCallback run.task run.host (run.entry s).mem =
      .ok (outcome, m) → OtherHarts run.task (fun u => Instruction.ecall = .ecall ∧
        handlers ((s.forest.vm run.task).hart.registers a7) = some .execve ∧
        getLinkedVm s.forest run.task .vm = .ok u) s.forest m.world.forest := by
    intro outcome m hcall
    obtain ⟨⟨value, world⟩, hsyscall, hcall⟩ := Result.bind_eq_ok.mp hcall
    rw [run.entry_hart, show (run.entry s).mem.world = s from rfl, Sandbox.setHart_self] at hsyscall
    obtain ⟨htasks, hharts⟩ := doSyscall_otherHarts hsyscall
    have hworld : m.world = world := by
      cases value with
      | some value =>
        cases hcall
        rfl
      | none =>
        cases hcall
        rfl
    rw [hworld]
    exact ⟨htasks, fun u hu hne hwritten => hharts u hu hne fun h => hwritten ⟨rfl, h⟩⟩
  obtain ⟨args, m, ⟨regs, hcall, hmem⟩ | ⟨hcall, hmem⟩⟩ :=
    ecallCode_ok (run.entry_entered s) hexec
  · have hharts := hcalled hcall
    simp only at hmem
    rw [hmem]
    exact hset _ hharts
  · have hharts := hcalled hcall
    simp only at hmem
    rw [hmem]
    exact hset _ hharts

end Calls

end Hyrule
