import Hyrule.Lib.Simulation
import Hyrule.Lib.Stack
import Hyrule.Sched.RoundRobin

/-!
# Switching between tasks

`user_space_trap` of `vmm_trap.S` and `task_vmm_sched_init` of `vmm_sched.c`, on the bytes of
the stacks.  `yield_cpu` pushes the registers of the caller to its own stack, and the trap
handler keeps the address of this `struct x86_64_cpustate` and returns the one of the next
task, which is popped from there.  A new task has one on top of its stack that was never
pushed.

There is one processor, and every task behaves as if it had its own.  `OneCpu` is the processor
with the memory, `Virtual` has a context for each task, and `OneCpu.view` reads the contexts of
the tasks that do not run from their stacks.  What a task does between two calls of the
scheduler is any change to the registers, and to memory outside the stacks of others.
-/

namespace Hyrule

open Lib Lib.Result Lib.Stack

/-! ## Saved registers -/

/-- The general purpose registers but for `rsp`. -/
inductive HostReg where
  | rax | rbx | rcx | rdx | rsi | rdi | rbp
  | r8 | r9 | r10 | r11 | r12 | r13 | r14 | r15
deriving DecidableEq

/-- The registers of a task. -/
abbrev HostContext := Stack.Context HostReg

/-- The fields of `struct x86_64_cpustate` in their order, but for `trap_reason`. -/
def cpustateSlots : List (Slot HostReg) :=
  [.reg .rbp, .reg .rdi, .reg .rsi, .reg .rax, .reg .rbx, .reg .rcx, .reg .rdx, .reg .r8,
    .reg .r9, .reg .r10, .reg .r11, .reg .r12, .reg .r13, .reg .r14, .reg .r15, .rflags, .rip]

/-- The registers that a `struct x86_64_cpustate` describes. -/
def cpustate (memory : Memory) (cpu : Quad) : HostContext where
  regs
    | .rbp => readQuad memory cpu
    | .rdi => readQuad memory (cpu + 8)
    | .rsi => readQuad memory (cpu + 16)
    | .rax => readQuad memory (cpu + 24)
    | .rbx => readQuad memory (cpu + 32)
    | .rcx => readQuad memory (cpu + 40)
    | .rdx => readQuad memory (cpu + 48)
    | .r8 => readQuad memory (cpu + 56)
    | .r9 => readQuad memory (cpu + 64)
    | .r10 => readQuad memory (cpu + 72)
    | .r11 => readQuad memory (cpu + 80)
    | .r12 => readQuad memory (cpu + 88)
    | .r13 => readQuad memory (cpu + 96)
    | .r14 => readQuad memory (cpu + 104)
    | .r15 => readQuad memory (cpu + 112)
  rflags := readQuad memory (cpu + 120)
  rsp := cpu + 136
  rip := readQuad memory (cpu + 128)

/-- The call of `user_space_trap`, and its code up to the call of the handler. -/
def userSpaceTrap : List (Stack.Instr HostReg) :=
  [.push .rip, .push .rflags, .push (.reg .r15), .push (.reg .r14), .push (.reg .r13),
    .push (.reg .r12), .push (.reg .r11), .push (.reg .r10), .push (.reg .r9), .push (.reg .r8),
    .push (.reg .rdx), .push (.reg .rcx), .push (.reg .rbx), .push (.reg .rax),
    .push (.reg .rsi), .push (.reg .rdi), .push (.reg .rbp), .movqFromRsp .rdi]

/-- `user_space_trap_resume`. -/
def userSpaceTrapResume : List (Stack.Instr HostReg) :=
  [.movqToRsp .rax, .pop (.reg .rbp), .pop (.reg .rdi), .pop (.reg .rsi), .pop (.reg .rax),
    .pop (.reg .rbx), .pop (.reg .rcx), .pop (.reg .rdx), .pop (.reg .r8), .pop (.reg .r9),
    .pop (.reg .r10), .pop (.reg .r11), .pop (.reg .r12), .pop (.reg .r13), .pop (.reg .r14),
    .pop (.reg .r15), .pop .rflags, .pop .rip]

theorem mem_cpustateSlots (s : Slot HostReg) : s ∈ cpustateSlots := by
  cases s with
  | reg r => cases r <;> decide
  | rflags => decide
  | rip => decide

/-- The quads of a `struct x86_64_cpustate` are the registers it describes. -/
theorem holds_cpustate (memory : Memory) (cpu : Quad) :
    HoldsQuads memory cpu (cpustateSlots.map (cpustate memory cpu).get) := by
  simp [cpustateSlots, cpustate, HoldsQuads, Stack.Context.get, BitVec.add_assoc]

/-- The registers are determined by the quads. -/
theorem cpustate_eq {memory : Memory} {cpu : Quad} {c : HostContext}
    (h : HoldsQuads memory cpu (cpustateSlots.map c.get)) (hrsp : c.rsp = cpu + 136) :
    cpustate memory cpu = c := by
  have hpops := exec_pops_context ⟨c.withRsp cpu, memory⟩ mem_cpustateSlots h hrsp
  have hpops' := exec_pops_context ⟨c.withRsp cpu, memory⟩ mem_cpustateSlots
    (holds_cpustate memory cpu) rfl
  exact congrArg Stack.State.context (hpops'.symm.trans hpops)

/-- The registers are read from the bytes of the structure. -/
theorem cpustate_congr {m m' : Memory} {cpu : Quad} (h : Agree (InBlock cpu 136) m m') :
    cpustate m' cpu = cpustate m cpu := by
  refine cpustate_eq ((holds_cpustate m cpu).congr ?_ (h.mono fun x hx => ?_)) rfl
  · rw [List.length_map]
    decide
  · rwa [List.length_map] at hx

/-- What the handler gets: the address of a `struct x86_64_cpustate` below the stack pointer
with the registers of the caller, and the other bytes as they were. -/
theorem exec_userSpaceTrap (st : Stack.State HostReg) :
    (exec userSpaceTrap st).context.regs .rdi = st.context.rsp - 136 ∧
    cpustate (exec userSpaceTrap st).memory (st.context.rsp - 136) = st.context ∧
    Agree (fun x => ¬ InBlock (st.context.rsp - 136) 136 x) st.memory
      (exec userSpaceTrap st).memory := by
  have hcode : userSpaceTrap = cpustateSlots.reverse.map .push ++ [.movqFromRsp .rdi] := rfl
  have hsize : 8 * cpustateSlots.reverse.length = 136 := rfl
  obtain ⟨-, hrsp, hagree⟩ := exec_pushes cpustateSlots.reverse st (by decide)
  have hnothing : HoldsQuads st.memory st.context.rsp [] := trivial
  have hholds := holds_pushes cpustateSlots.reverse st hnothing (by decide)
  rw [List.reverse_reverse, List.append_nil] at hholds
  rw [hsize] at hrsp hagree
  rw [hcode, exec_append]
  generalize exec (cpustateSlots.reverse.map .push) st = st' at hrsp hholds hagree
  rw [hrsp] at hholds
  refine ⟨hrsp, cpustate_eq hholds ?_, hagree⟩
  exact (BitVec.sub_add_cancel st.context.rsp 136).symm

/-- A task resumes with the registers of the structure that the handler returned. -/
theorem exec_userSpaceTrapResume (st : Stack.State HostReg) :
    exec userSpaceTrapResume st =
      ⟨cpustate st.memory (st.context.regs .rax), st.memory⟩ := by
  have hcode : userSpaceTrapResume = [.movqToRsp .rax] ++ cpustateSlots.map .pop := rfl
  rw [hcode, exec_append]
  have hmoved : exec [.movqToRsp .rax] st =
      ⟨st.context.withRsp (st.context.regs .rax), st.memory⟩ := rfl
  rw [hmoved]
  exact exec_pops_context ⟨st.context.withRsp (st.context.regs .rax), st.memory⟩
    mem_cpustateSlots (holds_cpustate _ _) rfl

/-! ## One processor -/

/-- `VMM_STACK_SIZE`. -/
def vmmStackSize : Nat := 1024 * 8

/-- A stack. -/
structure HostStack where
  bottom : Quad
  size : Nat

/-- `x` is a byte of the stack. -/
def HostStack.Contains (stack : HostStack) (x : Quad) : Prop := InBlock stack.bottom stack.size x

/-- `x` is a byte of the stack, and not below `rsp`. -/
def HostStack.From (stack : HostStack) (rsp x : Quad) : Prop :=
  stack.Contains x ∧ (rsp - stack.bottom).toNat ≤ (x - stack.bottom).toNat

/-- The processor, the memory and the tasks. -/
structure OneCpu where
  sched : Sched
  cpu : Stack.State HostReg
  /-- The stack of each task, and the one of `main`, which the idle task uses. -/
  vmmStack : Option TaskId → HostStack
  /-- `host_cpustate`. -/
  hostCpustate : Option TaskId → Quad

/-- `x` is the idle task, or it has been created. -/
def Sched.Created (s : Sched) (x : Option TaskId) : Prop := ∀ t, x = some t → t < s.nrTasks

/-- `mmap` gives `hart_init` fresh pages for the stack of a task. -/
structure OneCpu.Maps (h : OneCpu) (t : TaskId) (mapping : Quad) : Prop where
  aligned : mapping.toNat % 4096 = 0
  fits : mapping.toNat + (vmmStackSize + 4096) ≤ 2 ^ 64
  unused : ∀ y, h.sched.Created y → y ≠ some t →
    ∀ x, (h.vmmStack y).Contains x → ¬ InBlock mapping (vmmStackSize + 4096) x

/-- The stack that `hart_init` gives a task. -/
def OneCpu.hartInit (h : OneCpu) (t : TaskId) (mapping : Quad) : OneCpu :=
  { h with vmmStack := Function.update h.vmmStack (some t) ⟨mapping &&& ~~~4095, vmmStackSize⟩ }

/-- `vmm_stack_ptr`. -/
def OneCpu.vmmStackPtr (h : OneCpu) (t : TaskId) : Quad :=
  (h.vmmStack (some t)).bottom + BitVec.ofNat 64 vmmStackSize

/-- `task_vmm_sched_init`. -/
def OneCpu.taskVmmSchedInit (h : OneCpu) (t : TaskId) (nextFunc opaquePtr : Quad) : OneCpu :=
  let stack := (h.vmmStackPtr t - 144) &&& ~~~15
  let memory := memset h.cpu.memory stack 0 144
  let memory := writeQuad memory (stack + 8) opaquePtr
  let memory := writeQuad memory (stack + 128) nextFunc
  let memory := writeQuad memory (stack + 136) 0
  { h with
    cpu := ⟨h.cpu.context, memory⟩
    hostCpustate := Function.update h.hostCpustate (some t) stack }

/-- What a task does: something of its own, or an action of the scheduler. -/
inductive HostAction where
  | work
  | sched (action : TaskAction)

/-- The action creates a task. -/
def TaskAction.creates : TaskAction → Bool
  | .clone _ => true
  | _ => false

section Systems

variable (vmresume : Quad) (hartptr : TaskId → Quad)

/-- A new task is to enter `vmresume` with its hart. -/
def OneCpu.createTask (h : OneCpu) (t : TaskId) (mapping : Quad) : OneCpu :=
  (h.hartInit t mapping).taskVmmSchedInit t vmresume (hartptr t)

/-- The current task enters `user_space_trap`. -/
def OneCpu.trap (h : OneCpu) : Stack.State HostReg := exec userSpaceTrap h.cpu

/-- `current->host_cpustate = cpu`. -/
def OneCpu.saveCurrent (h : OneCpu) : Option TaskId → Quad :=
  Function.update h.hostCpustate h.sched.current (h.trap.context.regs .rdi)

/-- The steps of the current task.  A trap needs room on the stack, and the handler leaves all
stacks alone but for the bytes below its argument. -/
inductive HostStep : OneCpu → HostAction → OneCpu → Prop where
  | work {h : OneCpu} {cpu : Stack.State HostReg} :
      (∀ y, h.sched.Created y → y ≠ h.sched.current →
        Agree (h.vmmStack y).Contains h.cpu.memory cpu.memory) →
      HostStep h .work { h with cpu }
  | stay {h : OneCpu} {action : TaskAction} {s : Sched} :
      h.sched.perform action = some (.ok s) → h.sched.dispatches action = false →
      action.creates = false → HostStep h (.sched action) { h with sched := s }
  | create {h : OneCpu} {action : TaskAction} {s : Sched} {mapping : Quad} :
      h.sched.perform action = some (.ok s) → action.creates = true →
      OneCpu.Maps { h with sched := s } h.sched.nrTasks mapping →
      HostStep h (.sched action)
        (OneCpu.createTask vmresume hartptr { h with sched := s } h.sched.nrTasks mapping)
  | dispatch {h : OneCpu} {action : TaskAction} {s : Sched} {handler : Stack.State HostReg} :
      h.sched.perform action = some (.ok s) → h.sched.dispatches action = true →
      136 ≤ (h.cpu.context.rsp - (h.vmmStack h.sched.current).bottom).toNat →
      (h.cpu.context.rsp - (h.vmmStack h.sched.current).bottom).toNat ≤
        (h.vmmStack h.sched.current).size →
      handler.context.regs .rax = h.saveCurrent s.current →
      (∀ y, h.sched.Created y → ∀ x, (h.vmmStack y).Contains x →
        (y = h.sched.current → (h.vmmStack y).From (h.trap.context.regs .rdi) x) →
        handler.memory x = h.trap.memory x) →
      HostStep h (.sched action)
        { h with
          sched := s, cpu := exec userSpaceTrapResume handler, hostCpustate := h.saveCurrent }

/-- The runs from the call of `schedule_idle_task` by `main`. -/
def hostRuns : System OneCpu HostAction where
  init h := ∃ (h₀ : OneCpu) (mapping : Quad), boot = .ok h₀.sched ∧ h₀.Maps 0 mapping ∧
    h = h₀.createTask vmresume hartptr 0 mapping
  step := HostStep vmresume hartptr

/-! ## A processor for each task -/

/-- The tasks with a processor each. -/
structure Virtual where
  sched : Sched
  contexts : Option TaskId → HostContext
  memory : Memory
  vmmStack : Option TaskId → HostStack

/-- A task keeps its registers, and its stack from the stack pointer on. -/
structure Virtual.Keeps (v v' : Virtual) (y : Option TaskId) : Prop where
  contexts : v'.contexts y = v.contexts y
  vmmStack : v'.vmmStack y = v.vmmStack y
  memory : Agree ((v.vmmStack y).From (v.contexts y).rsp) v.memory v'.memory

/-- A task is about to enter `vmresume` with its hart, on a stack of its own. -/
structure Virtual.Starts (v : Virtual) (t : TaskId) : Prop where
  rip : (v.contexts (some t)).rip = vmresume
  regs : (v.contexts (some t)).regs = Function.update (fun _ => 0) .rdi (hartptr t)
  rflags : (v.contexts (some t)).rflags = 0
  rsp : (v.contexts (some t)).rsp =
    (v.vmmStack (some t)).bottom + BitVec.ofNat 64 (vmmStackSize - 8)
  aligned : (v.contexts (some t)).rsp.toNat % 16 = 8
  /-- `vmresume` returns to address 0, if it does. -/
  caller : readQuad v.memory (v.contexts (some t)).rsp = 0
  size : (v.vmmStack (some t)).size = vmmStackSize
  apart : ∀ y, v.sched.Created y → y ≠ some t →
    ∀ x, (v.vmmStack (some t)).Contains x → ¬ (v.vmmStack y).Contains x

/-- Work of the current task keeps all others.  An action of the scheduler keeps every task,
whether it dispatches or not. -/
inductive VirtualStep : Virtual → HostAction → Virtual → Prop where
  | work {v v' : Virtual} :
      v'.sched = v.sched → v'.vmmStack v.sched.current = v.vmmStack v.sched.current →
      (∀ y, v.sched.Created y → y ≠ v.sched.current → v.Keeps v' y) → VirtualStep v .work v'
  | sched {v v' : Virtual} {action : TaskAction} :
      v.sched.perform action = some (.ok v'.sched) →
      (∀ y, v.sched.Created y → v.Keeps v' y) →
      (∀ t, v'.sched.Created (some t) → ¬ v.sched.Created (some t) →
        v'.Starts vmresume hartptr t) →
      VirtualStep v (.sched action) v'

/-- The runs with a processor for each task. -/
def virtualRuns : System Virtual HostAction where
  init v := boot = .ok v.sched ∧ v.Starts vmresume hartptr 0
  step := VirtualStep vmresume hartptr

end Systems

/-- The current task has the registers of the processor, and the others those on their stacks. -/
def OneCpu.contexts (h : OneCpu) (y : Option TaskId) : HostContext :=
  if y = h.sched.current then h.cpu.context else cpustate h.cpu.memory (h.hostCpustate y)

/-- The processors that the tasks have. -/
def OneCpu.view (h : OneCpu) : Virtual where
  sched := h.sched
  contexts := h.contexts
  memory := h.cpu.memory
  vmmStack := h.vmmStack

/-! ## Tasks that come and go -/

section Sched

variable {s s' : Sched} {action : TaskAction}

theorem Sched.Settled.perform_nrTasks (h : s.Settled) (hstep : s.perform action = some (.ok s')) :
    s'.nrTasks = s.nrTasks + action.creates.toNat := by
  obtain ⟨hcpu, r, b, g, w, k, hcons⟩ := h
  have hdispatch : ∀ {s₁ : Sched} {r b g : List TaskId} {w k : TaskId → List BlobId},
      s₁.Consistent r b g w k → userspaceTrapHandler s₁ = .ok s' → s'.nrTasks = s₁.nrTasks := by
    intro s₁ r b g w k hcons₁ hrun
    obtain ⟨queues, hrun', -⟩ := hcons₁.dispatch
    obtain rfl := Except.ok.inj (hrun'.symm.trans hrun)
    rfl
  rcases Sched.perform_cases hstep with ⟨rfl, hres⟩ | ⟨c, hc, ⟨flags, rfl, -, hres⟩ |
    ⟨pidHint, options, rfl, hp, hres⟩ | ⟨rfl, hp, hres⟩ | ⟨wait, rfl, hp, hres⟩⟩
  · exact hdispatch hcons hres.symm
  · obtain ⟨queues, globalTasks, waitQueues, hrun, -⟩ := hcons.clone hcpu c flags
    obtain rfl := Except.ok.inj (hres.trans hrun)
    rfl
  · obtain ⟨d, l, s₁, w', k', ret, target, hd, hscan, hfound, hblock, hreturn⟩ :=
      hcons.callWait4 (hcpu c hc) hp pidHint options
    have hsame : s₁.nrTasks = s.nrTasks := by
      obtain ⟨_, _, _, _, rfl⟩ := hscan.same
      rfl
    by_cases hqueued : k' c = []
    · obtain ⟨globalTasks, waitQueues, waitBlobs, w'', hrun, -⟩ := hreturn hqueued
      rw [hrun] at hres
      obtain rfl := Except.ok.inj hres
      exact hsame
    · have hcons₁ := hcons.block hcpu hc ⟨ret, target, pidHint, options⟩
        hfound.target_ne_none hd hscan
      rw [hblock hqueued] at hres
      obtain ⟨⟨_, s₂⟩, hcall, hs₂⟩ := bind_eq_ok.mp hres.symm
      obtain ⟨s₃, hrun, hcall⟩ := bind_eq_ok.mp hcall
      cases hcall
      cases hs₂
      exact (hdispatch hcons₁ hrun).trans hsame
  · rw [hcons.doExit_eq hcpu hc] at hres
    have hnr := hdispatch (hcons.exit hc hp) hres.symm
    exact hnr
  · obtain ⟨globalTasks, waitQueues, waitBlobs, w', hrun, -⟩ :=
      hcons.finish c wait.options (hcons.targets c wait hp)
    rw [resumeWait4, hrun] at hres
    obtain rfl := Except.ok.inj hres
    rfl

/-- An action keeps the tasks, and may create one. -/
theorem Sched.Settled.created_iff (h : s.Settled) (hstep : s.perform action = some (.ok s'))
    {y : Option TaskId} :
    s'.Created y ↔ s.Created y ∨ action.creates = true ∧ y = some s.nrTasks := by
  have hnr := h.perform_nrTasks hstep
  cases y with
  | none => simp [Sched.Created]
  | some t =>
    cases hcreates : action.creates with
    | false =>
      rw [hcreates] at hnr
      simp [Sched.Created, hnr]
    | true =>
      rw [hcreates, Bool.toNat_true] at hnr
      simp only [Sched.Created, hnr, Option.some.injEq, forall_eq', true_and]
      exact Nat.lt_succ_iff_lt_or_eq

theorem Sched.Settled.current_created (h : s.Settled) : s.Created s.current := by
  obtain ⟨hcpu, r, b, g, w, k, hcons⟩ := h
  intro t ht
  exact hcons.listed_lt hcpu (Or.inr (Or.inr ht))

/-- Without a dispatch the current task goes on. -/
theorem Sched.Settled.current_eq (h : s.Settled) (hstep : s.perform action = some (.ok s'))
    (hdispatch : s.dispatches action = false) : s'.current = s.current := by
  have hline := h.fifo_step hstep
  rw [hdispatch] at hline
  generalize hfifo : s'.fifo = q at hline
  cases hline with
  | join l => exact congrArg Fifo.served hfifo

theorem TaskAction.dispatches_of_creates (h : action.creates = true) :
    s.dispatches action = false := by
  cases action with
  | clone flags => rfl
  | wait4 pidHint options => cases h
  | exit => cases h
  | yield => cases h
  | resume => cases h

end Sched

/-! ## Bytes of a stack -/

section Stacks

variable {stack : HostStack} {rsp x : Quad}

/-- The saved registers are in the stack. -/
theorem HostStack.contains_saved (h : (rsp - stack.bottom).toNat + 136 ≤ stack.size)
    (hx : InBlock rsp 136 x) : stack.Contains x := by
  unfold HostStack.Contains
  unfold InBlock at hx ⊢
  bv_omega

/-- The registers of a trap are saved in the stack. -/
theorem HostStack.from_saved (hroom : 136 ≤ (rsp - stack.bottom).toNat)
    (hrsp : (rsp - stack.bottom).toNat ≤ stack.size) (hx : InBlock (rsp - 136) 136 x) :
    stack.From (rsp - 136) x := by
  unfold HostStack.From HostStack.Contains
  unfold InBlock at hx ⊢
  bv_omega

/-- They are saved below what the caller has on its stack. -/
theorem HostStack.not_saved_of_from (hroom : 136 ≤ (rsp - stack.bottom).toNat)
    (hx : stack.From rsp x) : ¬ InBlock (rsp - 136) 136 x := by
  unfold HostStack.From HostStack.Contains at hx
  unfold InBlock at hx ⊢
  bv_omega

theorem HostStack.from_sub (hroom : 136 ≤ (rsp - stack.bottom).toNat)
    (hx : stack.From rsp x) : stack.From (rsp - 136) x := by
  unfold HostStack.From HostStack.Contains at hx ⊢
  unfold InBlock at hx ⊢
  bv_omega

end Stacks

/-! ## A new task -/

section Systems

variable {vmresume : Quad} {hartptr : TaskId → Quad}

/-- The registers of a task that starts on a stack. -/
def startContext (vmresume : Quad) (hart : Quad) (stack : Quad) : HostContext where
  regs := Function.update (fun _ => 0) .rdi hart
  rflags := 0
  rsp := stack + BitVec.ofNat 64 (vmmStackSize - 8)
  rip := vmresume

/-- What `task_vmm_sched_init` leaves for a new task. -/
theorem OneCpu.Maps.createTask {h : OneCpu} {t : TaskId} {mapping : Quad} (hmaps : h.Maps t mapping)
    (vmresume : Quad) (hartptr : TaskId → Quad) :
    (h.createTask vmresume hartptr t mapping).vmmStack =
      Function.update h.vmmStack (some t) ⟨mapping, vmmStackSize⟩ ∧
    (h.createTask vmresume hartptr t mapping).hostCpustate =
      Function.update h.hostCpustate (some t) (mapping + 8048) ∧
    cpustate (h.createTask vmresume hartptr t mapping).cpu.memory (mapping + 8048) =
      startContext vmresume (hartptr t) mapping ∧
    readQuad (h.createTask vmresume hartptr t mapping).cpu.memory
      (mapping + BitVec.ofNat 64 (vmmStackSize - 8)) = 0 ∧
    Agree (fun x => ¬ InBlock (mapping + 8048) 144 x) h.cpu.memory
      (h.createTask vmresume hartptr t mapping).cpu.memory := by
  have haligned := hmaps.aligned
  have hfits := hmaps.fits
  have hbottom : mapping &&& ~~~4095 = mapping := and_not_low (k := 12) haligned (by decide)
  have hstack : (mapping + BitVec.ofNat 64 vmmStackSize - 144) &&& ~~~15 = mapping + 8048 := by
    have htop : mapping + BitVec.ofNat 64 vmmStackSize - 144 = mapping + 8048 := by
      unfold vmmStackSize
      bv_omega
    rw [htop]
    refine and_not_low (k := 4) ?_ (by decide)
    unfold vmmStackSize at hfits
    bv_omega
  let m₀ := memset h.cpu.memory (mapping + 8048) 0 144
  let m₁ := writeQuad m₀ (mapping + 8048 + 8) (hartptr t)
  let m₂ := writeQuad m₁ (mapping + 8048 + 128) vmresume
  let m₃ := writeQuad m₂ (mapping + 8048 + 136) 0
  have hcreate : h.createTask vmresume hartptr t mapping =
      { sched := h.sched
        cpu := ⟨h.cpu.context, m₃⟩
        vmmStack := Function.update h.vmmStack (some t) ⟨mapping, vmmStackSize⟩
        hostCpustate := Function.update h.hostCpustate (some t) (mapping + 8048) } := by
    simp only [OneCpu.createTask, OneCpu.taskVmmSchedInit, OneCpu.vmmStackPtr, OneCpu.hartInit,
      hbottom, Function.update_self, hstack]
    rfl
  have hholds : HoldsQuads m₃ (mapping + 8048)
      (cpustateSlots.map (startContext vmresume (hartptr t) mapping).get ++ [0]) := by
    have h₀ : HoldsQuads m₀ (mapping + 8048) (List.replicate 18 0) :=
      holds_memset _ _ 18 (by decide)
    have h₁ := h₀.write (v := hartptr t) (i := 1) (by decide) (by decide)
    have h₂ := h₁.write (v := vmresume) (i := 16) (by simp) (by simp)
    exact h₂.write (v := 0) (i := 17) (by simp) (by simp)
  obtain ⟨hregs, hreason, -⟩ := hholds.append
  have hagree : Agree (fun x => ¬ InBlock (mapping + 8048) 144 x) h.cpu.memory m₃ := by
    have hwrite : ∀ (m : Memory) (v : Quad) (k : Nat), k + 8 ≤ 144 →
        Agree (fun x => ¬ InBlock (mapping + 8048) 144 x) m
          (writeQuad m (mapping + 8048 + BitVec.ofNat 64 k) v) := by
      intro m v k hk
      exact (agree_writeQuad m _ v).mono fun x hx hin => hx (hin.shift hk)
    exact (((agree_memset _ _ _ _).trans (hwrite m₀ _ 8 (by decide))).trans
      (hwrite m₁ _ 128 (by decide))).trans (hwrite m₂ _ 136 (by decide))
  rw [hcreate]
  refine ⟨rfl, rfl, cpustate_eq hregs ?_, ?_, hagree⟩
  · show mapping + BitVec.ofNat 64 (vmmStackSize - 8) = mapping + 8048 + 136
    unfold vmmStackSize
    bv_omega
  · have haddr : mapping + BitVec.ofNat 64 (vmmStackSize - 8) =
        mapping + 8048 + BitVec.ofNat 64 (8 * cpustateSlots.length) := by
      show mapping + BitVec.ofNat 64 (vmmStackSize - 8) = mapping + 8048 + BitVec.ofNat 64 136
      unfold vmmStackSize
      bv_omega
    rw [haddr]
    rw [List.length_map] at hreason
    exact hreason

theorem Virtual.Starts.of_context {v : Virtual} {t : TaskId} {mapping : Quad}
    (hcontext : v.contexts (some t) = startContext vmresume (hartptr t) mapping)
    (hstack : v.vmmStack (some t) = ⟨mapping, vmmStackSize⟩)
    (haligned : mapping.toNat % 4096 = 0)
    (hcaller : readQuad v.memory (mapping + BitVec.ofNat 64 (vmmStackSize - 8)) = 0)
    (hapart : ∀ y, v.sched.Created y → y ≠ some t →
      ∀ x, (v.vmmStack (some t)).Contains x → ¬ (v.vmmStack y).Contains x) :
    v.Starts vmresume hartptr t where
  rip := by
    rw [hcontext]
    rfl
  regs := by
    rw [hcontext]
    rfl
  rflags := by
    rw [hcontext]
    rfl
  rsp := by
    rw [hcontext, hstack]
    rfl
  aligned := by
    rw [hcontext]
    show (mapping + BitVec.ofNat 64 (vmmStackSize - 8)).toNat % 16 = 8
    unfold vmmStackSize
    bv_omega
  caller := by
    rw [hcontext]
    exact hcaller
  size := by rw [hstack]
  apart := hapart

/-! ## Steps -/

/-- The stacks are apart, and the registers of every task that does not run are on its own. -/
structure OneCpu.Sound (h : OneCpu) : Prop where
  settled : h.sched.Settled
  apart : ∀ y z, h.sched.Created y → h.sched.Created z → y ≠ z →
    ∀ x, (h.vmmStack y).Contains x → ¬ (h.vmmStack z).Contains x
  saved : ∀ y, h.sched.Created y → y ≠ h.sched.current →
    (h.hostCpustate y - (h.vmmStack y).bottom).toNat + 136 ≤ (h.vmmStack y).size

section Steps

variable {h h' : OneCpu}

theorem OneCpu.contexts_current (h : OneCpu) : h.contexts h.sched.current = h.cpu.context :=
  if_pos rfl

theorem OneCpu.contexts_of_ne {y : Option TaskId} (hy : y ≠ h.sched.current) :
    h.contexts y = cpustate h.cpu.memory (h.hostCpustate y) := if_neg hy

theorem OneCpu.saveCurrent_current (h : OneCpu) :
    h.saveCurrent h.sched.current = h.trap.context.regs .rdi :=
  Function.update_self _ _ h.hostCpustate

theorem OneCpu.saveCurrent_of_ne {y : Option TaskId} (hy : y ≠ h.sched.current) :
    h.saveCurrent y = h.hostCpustate y :=
  Function.update_of_ne hy _ h.hostCpustate

/-- A task that does not run keeps everything if its stack is left alone. -/
theorem OneCpu.Sound.keeps (hsound : h.Sound) {y : Option TaskId} (hy : h.sched.Created y)
    (hne : y ≠ h.sched.current) (hne' : y ≠ h'.sched.current)
    (hsaved : h'.hostCpustate y = h.hostCpustate y) (hstack : h'.vmmStack y = h.vmmStack y)
    (hmemory : Agree (h.vmmStack y).Contains h.cpu.memory h'.cpu.memory) :
    h.view.Keeps h'.view y where
  contexts := by
    show h'.contexts y = h.contexts y
    rw [OneCpu.contexts_of_ne hne, OneCpu.contexts_of_ne hne', hsaved]
    refine cpustate_congr (hmemory.mono fun x hx => ?_)
    exact HostStack.contains_saved (hsound.saved y hy hne) hx
  vmmStack := hstack
  memory := hmemory.mono fun _ hx => hx.1

/-- Work of the current task. -/
theorem OneCpu.Sound.work (hsound : h.Sound) {cpu : Stack.State HostReg}
    (hothers : ∀ y, h.sched.Created y → y ≠ h.sched.current →
      Agree (h.vmmStack y).Contains h.cpu.memory cpu.memory) :
    OneCpu.Sound { h with cpu } ∧
      VirtualStep vmresume hartptr h.view .work (OneCpu.view { h with cpu }) := by
  refine ⟨⟨hsound.settled, hsound.apart, hsound.saved⟩, .work rfl rfl fun y hy hne => ?_⟩
  exact hsound.keeps hy hne hne rfl rfl (hothers y hy hne)

/-- An action that creates no task and does not dispatch. -/
theorem OneCpu.Sound.stay (hsound : h.Sound) {action : TaskAction} {s : Sched}
    (hstep : h.sched.perform action = some (.ok s)) (hdispatch : h.sched.dispatches action = false)
    (hcreates : action.creates = false) :
    OneCpu.Sound { h with sched := s } ∧
      VirtualStep vmresume hartptr h.view (.sched action) (OneCpu.view { h with sched := s }) := by
  obtain ⟨s', hs', hsettled, -⟩ := hsound.settled.perform hstep
  cases hs'
  have hcurrent := hsound.settled.current_eq hstep hdispatch
  have hcreated : ∀ y, s.Created y ↔ h.sched.Created y := by
    intro y
    rw [hsound.settled.created_iff hstep, hcreates]
    simp
  refine ⟨⟨hsettled, fun y z hy hz => ?_, fun y hy hne => ?_⟩, ?_⟩
  · exact hsound.apart y z ((hcreated y).mp hy) ((hcreated z).mp hz)
  · exact hsound.saved y ((hcreated y).mp hy) (hcurrent ▸ hne)
  · refine .sched hstep (fun y hy => ?_) fun t ht hnot => absurd ((hcreated _).mp ht) hnot
    refine ⟨?_, rfl, Agree.refl _ _⟩
    show OneCpu.contexts { h with sched := s } y = h.contexts y
    unfold OneCpu.contexts
    rw [hcurrent]

/-- An action that creates a task. -/
theorem OneCpu.Sound.create (hsound : h.Sound) {action : TaskAction} {s : Sched} {mapping : Quad}
    (hstep : h.sched.perform action = some (.ok s)) (hcreates : action.creates = true)
    (hmaps : OneCpu.Maps { h with sched := s } h.sched.nrTasks mapping) :
    (OneCpu.createTask vmresume hartptr { h with sched := s } h.sched.nrTasks mapping).Sound ∧
      VirtualStep vmresume hartptr h.view (.sched action) (OneCpu.createTask vmresume hartptr
        { h with sched := s } h.sched.nrTasks mapping).view := by
  obtain ⟨s', hs', hsettled, -⟩ := hsound.settled.perform hstep
  cases hs'
  have hcurrent := hsound.settled.current_eq hstep (TaskAction.dispatches_of_creates hcreates)
  have hcreated : ∀ y, s.Created y ↔ h.sched.Created y ∨ y = some h.sched.nrTasks := by
    intro y
    rw [hsound.settled.created_iff hstep, hcreates]
    simp
  obtain ⟨hstacks, hsaved, hcontext, hcaller, hmemory⟩ :=
    hmaps.createTask vmresume hartptr
  have hsched : (OneCpu.createTask vmresume hartptr { h with sched := s } h.sched.nrTasks
      mapping).sched = s := rfl
  have hcpu : (OneCpu.createTask vmresume hartptr { h with sched := s } h.sched.nrTasks
      mapping).cpu.context = h.cpu.context := rfl
  generalize OneCpu.createTask vmresume hartptr { h with sched := s } h.sched.nrTasks mapping = h'
    at *
  have hfresh : ¬ h.sched.Created (some h.sched.nrTasks) := fun hlt => Nat.lt_irrefl _ (hlt _ rfl)
  have hchild : h'.vmmStack (some h.sched.nrTasks) = ⟨mapping, vmmStackSize⟩ := by
    rw [hstacks, Function.update_self]
  have hold : ∀ y, y ≠ some h.sched.nrTasks →
      h'.vmmStack y = h.vmmStack y ∧ h'.hostCpustate y = h.hostCpustate y := by
    intro y hy
    rw [hstacks, hsaved]
    exact ⟨Function.update_of_ne hy _ _, Function.update_of_ne hy _ _⟩
  have hne : ∀ {y}, h.sched.Created y → y ≠ some h.sched.nrTasks := by
    rintro y hy rfl
    exact hfresh hy
  have hapart : ∀ y, h.sched.Created y → ∀ x, (h.vmmStack y).Contains x →
      ¬ (h'.vmmStack (some h.sched.nrTasks)).Contains x := by
    intro y hy x hx hx'
    rw [hchild] at hx'
    exact hmaps.unused y ((hcreated y).mpr (Or.inl hy)) (hne hy) x hx
      (Nat.lt_of_lt_of_le hx' (Nat.le_add_right _ _))
  have hcontexts : h'.contexts (some h.sched.nrTasks) =
      startContext vmresume (hartptr h.sched.nrTasks) mapping := by
    rw [OneCpu.contexts_of_ne, hsaved, Function.update_self, hcontext]
    rw [hsched, hcurrent]
    exact (hne hsound.settled.current_created).symm
  have hperform : h.sched.perform action = some (.ok h'.sched) := by
    rw [hsched]
    exact hstep
  refine ⟨⟨hsched ▸ hsettled, fun y z hy hz hyz x hx => ?_, fun y hy hy' => ?_⟩, ?_⟩
  · rw [hsched, hcreated] at hy hz
    rcases hy with hy | rfl
    · rw [(hold y (hne hy)).1] at hx
      rcases hz with hz | rfl
      · rw [(hold z (hne hz)).1]
        exact hsound.apart y z hy hz hyz x hx
      · exact hapart y hy x hx
    · rcases hz with hz | rfl
      · rw [(hold z (hne hz)).1]
        exact fun hx' => hapart z hz x hx' hx
      · exact absurd rfl hyz
  · rw [hsched] at hy hy'
    rcases (hcreated y).mp hy with hy | rfl
    · rw [(hold y (hne hy)).1, (hold y (hne hy)).2]
      exact hsound.saved y hy (hcurrent ▸ hy')
    · rw [hchild, hsaved, Function.update_self]
      show (mapping + 8048 - mapping).toNat + 136 ≤ vmmStackSize
      unfold vmmStackSize
      bv_omega
  · refine .sched hperform (fun y hy => ?_) fun t ht hnot => ?_
    · have hagree : Agree (h.vmmStack y).Contains h.cpu.memory h'.cpu.memory := by
        refine hmemory.mono fun x hx hin => hapart y hy x hx ?_
        rw [hchild]
        exact Stack.InBlock.shift (k := 8048) (n := 144) hin
          (by decide : 8048 + 144 ≤ vmmStackSize)
      by_cases hy' : y = h.sched.current
      · refine ⟨?_, (hold y (hne hy)).1, hagree.mono fun _ hx => hx.1⟩
        show h'.contexts y = h.contexts y
        rw [hy', h.contexts_current, ← hcurrent, ← hsched, h'.contexts_current, hcpu]
      · refine hsound.keeps hy hy' ?_ (hold y (hne hy)).2 (hold y (hne hy)).1 hagree
        rwa [hsched, hcurrent]
    · have ht' : h'.sched.Created (some t) := ht
      rw [hsched, hcreated] at ht'
      obtain rfl := Option.some.inj (ht'.resolve_left hnot)
      refine Virtual.Starts.of_context hcontexts hchild hmaps.aligned hcaller ?_
      intro y hy hy' x hx hx'
      have hcreated' : h'.sched.Created y := hy
      rw [hsched, hcreated] at hcreated'
      refine hapart y (hcreated'.resolve_right hy') x ?_ hx
      rwa [← (hold y hy').1]

/-- An action that dispatches. -/
theorem OneCpu.Sound.dispatch (hsound : h.Sound) {action : TaskAction} {s : Sched}
    {handler : Stack.State HostReg}
    (hstep : h.sched.perform action = some (.ok s)) (hdispatch : h.sched.dispatches action = true)
    (hroom : 136 ≤ (h.cpu.context.rsp - (h.vmmStack h.sched.current).bottom).toNat)
    (hrsp : (h.cpu.context.rsp - (h.vmmStack h.sched.current).bottom).toNat ≤
      (h.vmmStack h.sched.current).size)
    (hreturn : handler.context.regs .rax = h.saveCurrent s.current)
    (hleaves : ∀ y, h.sched.Created y → ∀ x, (h.vmmStack y).Contains x →
      (y = h.sched.current → (h.vmmStack y).From (h.trap.context.regs .rdi) x) →
      handler.memory x = h.trap.memory x) :
    OneCpu.Sound { h with
        sched := s, cpu := exec userSpaceTrapResume handler, hostCpustate := h.saveCurrent } ∧
      VirtualStep vmresume hartptr h.view (.sched action) (OneCpu.view { h with
        sched := s, cpu := exec userSpaceTrapResume handler, hostCpustate := h.saveCurrent }) := by
  obtain ⟨s', hs', hsettled, -⟩ := hsound.settled.perform hstep
  cases hs'
  have hcreates : action.creates = false := by
    rw [Bool.eq_false_iff]
    intro hcreates
    rw [TaskAction.dispatches_of_creates hcreates] at hdispatch
    cases hdispatch
  have hcreated : ∀ y, s.Created y ↔ h.sched.Created y := by
    intro y
    rw [hsound.settled.created_iff hstep, hcreates]
    simp
  have hcurrent := hsound.settled.current_created
  obtain ⟨hrdi, hsaved, htrap⟩ := exec_userSpaceTrap h.cpu
  rw [← OneCpu.trap] at hrdi hsaved htrap
  rw [exec_userSpaceTrapResume, hreturn]
  -- Every task has its registers where the handler keeps them.
  have hcontexts : ∀ y, h.sched.Created y →
      cpustate handler.memory (h.saveCurrent y) = h.contexts y := by
    intro y hy
    by_cases hy' : y = h.sched.current
    · subst hy'
      have hframe : Agree (InBlock (h.cpu.context.rsp - 136) 136) h.trap.memory
          handler.memory := by
        intro x hx
        have hfrom := HostStack.from_saved hroom hrsp hx
        rw [← hrdi] at hfrom
        exact hleaves _ hy x hfrom.1 fun _ => hfrom
      rw [h.saveCurrent_current, hrdi, h.contexts_current, cpustate_congr hframe, hsaved]
    · rw [OneCpu.saveCurrent_of_ne hy', OneCpu.contexts_of_ne hy']
      refine cpustate_congr fun x hx => ?_
      have hin := HostStack.contains_saved (hsound.saved y hy hy') hx
      rw [hleaves y hy x hin fun heq => absurd heq hy']
      refine htrap x fun hblock => ?_
      exact hsound.apart y _ hy hcurrent hy' x hin
        (HostStack.from_saved hroom hrsp hblock).1
  have hmemory : ∀ y, h.sched.Created y →
      Agree ((h.vmmStack y).From (h.contexts y).rsp) h.cpu.memory handler.memory := by
    intro y hy x hx
    by_cases hy' : y = h.sched.current
    · subst hy'
      rw [h.contexts_current] at hx
      have hfrom := HostStack.from_sub hroom hx
      rw [← hrdi] at hfrom
      rw [hleaves _ hy x hx.1 fun _ => hfrom]
      exact htrap x (HostStack.not_saved_of_from hroom hx)
    · rw [hleaves y hy x hx.1 fun heq => absurd heq hy']
      refine htrap x fun hblock => ?_
      exact hsound.apart y _ hy hcurrent hy' x hx.1
        (HostStack.from_saved hroom hrsp hblock).1
  refine ⟨⟨hsettled, fun y z hy hz => ?_, fun y hy hy' => ?_⟩, ?_⟩
  · exact hsound.apart y z ((hcreated y).mp hy) ((hcreated z).mp hz)
  · show (h.saveCurrent y - (h.vmmStack y).bottom).toNat + 136 ≤ (h.vmmStack y).size
    by_cases hold : y = h.sched.current
    · subst hold
      rw [h.saveCurrent_current, hrdi]
      bv_omega
    · rw [OneCpu.saveCurrent_of_ne hold]
      exact hsound.saved y ((hcreated y).mp hy) hold
  · refine .sched hstep (fun y hy => ⟨?_, rfl, hmemory y hy⟩) fun t ht hnot =>
      absurd ((hcreated _).mp ht) hnot
    rw [← show h.contexts y = h.view.contexts y from rfl, ← hcontexts y hy]
    show OneCpu.contexts { h with
      sched := s, cpu := ⟨cpustate handler.memory (h.saveCurrent s.current), handler.memory⟩,
      hostCpustate := h.saveCurrent } y = cpustate handler.memory (h.saveCurrent y)
    unfold OneCpu.contexts
    split
    next heq => rw [heq]
    next => rfl

/-- Every step keeps what the stacks hold, and is a step of the tasks with a processor each. -/
theorem host_simulation : (hostRuns vmresume hartptr).Simulation (virtualRuns vmresume hartptr)
    OneCpu.view (fun _ action => some action) OneCpu.Sound := by
  refine .of_cases fun h action h' hsound hstep => ?_
  have hboth : h'.Sound ∧ VirtualStep vmresume hartptr h.view action h'.view := by
    cases hstep with
    | work hothers => exact hsound.work hothers
    | stay hperform hdispatch hcreates => exact hsound.stay hperform hdispatch hcreates
    | create hperform hcreates hmaps => exact hsound.create hperform hcreates hmaps
    | dispatch hperform hdispatch hroom hrsp hreturn hleaves =>
      exact hsound.dispatch hperform hdispatch hroom hrsp hreturn hleaves
  exact ⟨hboth.1, .inr ⟨action, rfl, hboth.2⟩⟩

theorem boot_first {s : Sched} (h : boot = .ok s) : s.nrTasks = 1 ∧ s.current = none := by
  have hrun : boot.toOption.map (fun s => (s.nrTasks, s.current)) = some (1, none) := by
    decide +kernel
  rw [h] at hrun
  simpa using hrun

/-- The start of `main` is one of the tasks with a processor each. -/
theorem OneCpu.sound_of_init (hinit : (hostRuns vmresume hartptr).init h) :
    h.Sound ∧ (virtualRuns vmresume hartptr).init h.view := by
  obtain ⟨h₀, mapping, hboot, hmaps, rfl⟩ := hinit
  obtain ⟨s, hs, hsettled, -⟩ := boot_spec
  obtain rfl : s = h₀.sched := Except.ok.inj (hs.symm.trans hboot)
  obtain ⟨hnr, hcurrent⟩ := boot_first hboot
  obtain ⟨hstacks, hsaved, hcontext, hcaller, -⟩ :=
    hmaps.createTask vmresume hartptr
  have hsched : (h₀.createTask vmresume hartptr 0 mapping).sched = h₀.sched := rfl
  generalize h₀.createTask vmresume hartptr 0 mapping = h at *
  have hcreated : ∀ y, h₀.sched.Created y → y = none ∨ y = some 0 := by
    intro y hy
    cases y with
    | none => exact .inl rfl
    | some t =>
      have hlt := hy t rfl
      rw [hnr, Nat.lt_one_iff] at hlt
      exact .inr (congrArg some hlt)
  have hidle : h₀.sched.Created none := fun t ht => by cases ht
  have hfirst : h.vmmStack (some 0) = ⟨mapping, vmmStackSize⟩ := by
    rw [hstacks, Function.update_self]
  have hmain : h.vmmStack none = h₀.vmmStack none := by
    rw [hstacks]
    exact Function.update_of_ne (Option.some_ne_none 0).symm _ _
  have hapart : ∀ x, (h.vmmStack (some 0)).Contains x → ¬ (h.vmmStack none).Contains x := by
    intro x hx hx'
    rw [hfirst] at hx
    rw [hmain] at hx'
    exact hmaps.unused none hidle (Option.some_ne_none 0).symm x hx'
      (Nat.lt_of_lt_of_le hx (Nat.le_add_right _ _))
  refine ⟨⟨hsched ▸ hsettled, fun y z hy hz hyz x hx => ?_, fun y hy hy' => ?_⟩, ?_, ?_⟩
  · rw [hsched] at hy hz
    rcases hcreated y hy with rfl | rfl
    · rcases hcreated z hz with rfl | rfl
      · exact absurd rfl hyz
      · exact fun hx' => hapart x hx' hx
    · rcases hcreated z hz with rfl | rfl
      · exact hapart x hx
      · exact absurd rfl hyz
  · rw [hsched] at hy hy'
    rcases hcreated y hy with rfl | rfl
    · exact absurd hcurrent.symm hy'
    · rw [hfirst, hsaved, Function.update_self]
      show (mapping + 8048 - mapping).toNat + 136 ≤ vmmStackSize
      unfold vmmStackSize
      bv_omega
  · rw [← hsched] at hboot
    exact hboot
  · refine Virtual.Starts.of_context ?_ hfirst hmaps.aligned hcaller fun y hy hy' x hx => ?_
    · show h.contexts (some 0) = _
      rw [OneCpu.contexts_of_ne, hsaved, Function.update_self, hcontext]
      rw [hsched, hcurrent]
      exact Option.some_ne_none 0
    · have hy₀ : h.sched.Created y := hy
      rw [hsched] at hy₀
      obtain rfl := (hcreated y hy₀).resolve_right hy'
      exact hapart x hx

/-! ## Runs -/

/-- The one processor serves the tasks as if each had its own: every run is a run with a
processor for each task, in which the current task has the registers of the one. -/
theorem context_switch_transparent {h₀ h : OneCpu} {steps : List (System.Step OneCpu HostAction)}
    (hinit : (hostRuns vmresume hartptr).init h₀)
    (hrun : (hostRuns vmresume hartptr).Run h₀ steps h) :
    (virtualRuns vmresume hartptr).init h₀.view ∧
    (virtualRuns vmresume hartptr).Run h₀.view
      (steps.filterMap (System.Step.observed OneCpu.view fun _ action => some action)) h.view ∧
    h.view.contexts h.sched.current = h.cpu.context := by
  obtain ⟨hsound, hinit'⟩ := OneCpu.sound_of_init hinit
  exact ⟨hinit', host_simulation.run hsound hrun, h.contexts_current⟩

/-- A handler that changes nothing but `rax`. -/
theorem HostStep.exists_dispatch (vmresume : Quad) (hartptr : TaskId → Quad) {action : TaskAction}
    {s : Sched}
    (hstep : h.sched.perform action = some (.ok s)) (hdispatch : h.sched.dispatches action = true)
    (hroom : 136 ≤ (h.cpu.context.rsp - (h.vmmStack h.sched.current).bottom).toNat)
    (hrsp : (h.cpu.context.rsp - (h.vmmStack h.sched.current).bottom).toNat ≤
      (h.vmmStack h.sched.current).size) :
    ∃ h', HostStep vmresume hartptr h (.sched action) h' ∧ h'.sched = s ∧
      h'.vmmStack = h.vmmStack := by
  let handler : Stack.State HostReg :=
    ⟨h.trap.context.set (.reg .rax) (h.saveCurrent s.current), h.trap.memory⟩
  have hrax : handler.context.regs .rax = h.saveCurrent s.current :=
    (h.trap.context.get_set (.reg .rax) (.reg .rax) _).trans (if_pos rfl)
  exact ⟨_, .dispatch hstep hdispatch hroom hrsp hrax fun _ _ _ _ _ => rfl, rfl, rfl⟩

/-- Registers with a stack pointer. -/
def workContext (value rsp : Quad) : HostContext := ⟨fun _ => value, 0, rsp, value⟩

/-- The first task works, clones a task and yields to it.  That task works and yields. -/
theorem exists_switches (vmresume : Quad) (hartptr : TaskId → Quad) :
    ∃ h₀ h₁ h₂ h₃ h₄ h₅ h₆ : OneCpu, (hostRuns vmresume hartptr).init h₀ ∧
      HostStep vmresume hartptr h₀ (.sched .yield) h₁ ∧ HostStep vmresume hartptr h₁ .work h₂ ∧
      HostStep vmresume hartptr h₂ (.sched (.clone 0)) h₃ ∧
      HostStep vmresume hartptr h₃ (.sched .yield) h₄ ∧
      HostStep vmresume hartptr h₄ .work h₅ ∧ HostStep vmresume hartptr h₅ (.sched .yield) h₆ ∧
      h₂.sched.current = some 0 ∧ h₂.cpu.context = workContext 7 0x201000 ∧
      h₄.sched.current = some 1 ∧ h₆.sched.current = some 0 := by
  have hrun : (do
      let s₀ ← boot.toOption
      let s₁ ← s₀.follow .yield
      let s₂ ← s₁.follow (.clone 0)
      let s₃ ← s₂.follow .yield
      let s₄ ← s₃.follow .yield
      return decide (s₀.current = none ∧ s₁.current = some 0 ∧ s₁.nrTasks = 1 ∧
        s₂.current = some 0 ∧ s₂.nrTasks = 2 ∧ s₃.current = some 1 ∧ s₄.current = some 0)) =
        some true := by
    decide +kernel
  simp only [Option.bind_eq_bind, Option.bind_eq_some_iff, Option.pure_def, Option.some.injEq,
    decide_eq_true_eq, Result.toOption_eq_some] at hrun
  obtain ⟨s₀, hs₀, s₁, hs₁, s₂, hs₂, s₃, hs₃, s₄, hs₄, hcurrent₀, hcurrent₁, hnr₁, hcurrent₂,
    hnr₂, hcurrent₃, hcurrent₄⟩ := hrun
  have hboot := boot_first hs₀
  let start : OneCpu :=
    ⟨s₀, ⟨workContext 0 0x108000, fun _ => 0⟩, fun _ => ⟨0x100000, 65536⟩, fun _ => 0⟩
  have hmaps₀ : start.Maps 0 0x200000 := by
    refine ⟨by decide, by decide, fun y _ _ x hx hx' => ?_⟩
    have hin : InBlock 0x100000 65536 x := hx
    unfold InBlock vmmStackSize at *
    bv_omega
  obtain ⟨hstack₀, -⟩ := hmaps₀.createTask vmresume hartptr
  have hinit : (hostRuns vmresume hartptr).init (start.createTask vmresume hartptr 0 0x200000) :=
    ⟨start, _, hs₀, hmaps₀, rfl⟩
  have hsched₀ : (start.createTask vmresume hartptr 0 0x200000).sched = s₀ := rfl
  have hrsp₀ : (start.createTask vmresume hartptr 0 0x200000).cpu.context.rsp = 0x108000 := rfl
  generalize start.createTask vmresume hartptr 0 0x200000 = h₀ at *
  have hmain : h₀.vmmStack none = ⟨0x100000, 65536⟩ := by
    rw [hstack₀]
    rfl
  have hfirst : h₀.vmmStack (some 0) = ⟨0x200000, vmmStackSize⟩ := by
    rw [hstack₀]
    rfl
  -- The idle task yields to the first task, which works.
  obtain ⟨h₁, hstep₁, hsched₁, hstack₁⟩ := HostStep.exists_dispatch vmresume hartptr
    (h := h₀) (schedRuns_step_of_follow (hsched₀ ▸ hs₁)) rfl
    (by rw [hrsp₀, hsched₀, hcurrent₀, hmain]; decide)
    (by rw [hrsp₀, hsched₀, hcurrent₀, hmain]; decide)
  let h₂ : OneCpu := { h₁ with cpu := ⟨workContext 7 0x201000, h₁.cpu.memory⟩ }
  have hstep₂ : HostStep vmresume hartptr h₁ .work h₂ := .work fun _ _ _ => Agree.refl _ _
  have hsched₂ : h₂.sched = s₁ := hsched₁
  have hstack₂ : h₂.vmmStack = h₀.vmmStack := hstack₁
  have hcontext₂ : h₂.cpu.context = workContext 7 0x201000 := rfl
  have hrsp₂ : h₂.cpu.context.rsp = 0x201000 := rfl
  generalize h₂ = h₂ at hstep₂ hsched₂ hstack₂ hcontext₂ hrsp₂
  -- It creates a second task.
  have hnr₂' : h₂.sched.nrTasks = 1 := by rw [hsched₂, hnr₁]
  have hmaps₂ : OneCpu.Maps { h₂ with sched := s₂ } h₂.sched.nrTasks 0x300000 := by
    refine ⟨by decide, by decide, fun y hy hne x hx hx' => ?_⟩
    have hin : (h₀.vmmStack y).Contains x := hstack₂ ▸ hx
    unfold HostStack.Contains at hin
    cases y with
    | none =>
      rw [hmain] at hin
      unfold InBlock vmmStackSize at *
      bv_omega
    | some t =>
      have hlt : t < s₂.nrTasks := hy t rfl
      rw [hnr₂] at hlt
      rw [hnr₂'] at hne
      have hle : t < 1 :=
        Nat.lt_of_le_of_ne (Nat.lt_succ_iff.mp hlt) fun heq => hne (congrArg some heq)
      obtain rfl := Nat.lt_one_iff.mp hle
      rw [hfirst] at hin
      unfold InBlock vmmStackSize at *
      bv_omega
  have hstep₃ : HostStep vmresume hartptr h₂ (.sched (.clone 0)) _ :=
    .create (schedRuns_step_of_follow (hsched₂ ▸ hs₂)) rfl hmaps₂
  obtain ⟨hstack₃, -⟩ := hmaps₂.createTask vmresume hartptr
  have hsched₃ : (OneCpu.createTask vmresume hartptr { h₂ with sched := s₂ } h₂.sched.nrTasks
    0x300000).sched = s₂ := rfl
  have hrsp₃ : (OneCpu.createTask vmresume hartptr { h₂ with sched := s₂ } h₂.sched.nrTasks
    0x300000).cpu.context.rsp = 0x201000 := hrsp₂
  generalize OneCpu.createTask vmresume hartptr { h₂ with sched := s₂ } h₂.sched.nrTasks
    0x300000 = h₃ at *
  have hfirst₃ : h₃.vmmStack (some 0) = ⟨0x200000, vmmStackSize⟩ := by
    rw [hstack₃, hnr₂', Function.update_of_ne (by decide), ← hfirst, ← hstack₂]
  have hsecond₃ : h₃.vmmStack (some 1) = ⟨0x300000, vmmStackSize⟩ := by
    rw [hstack₃, hnr₂', Function.update_self]
  -- The first task yields to it, and it works and yields.
  obtain ⟨h₄, hstep₄, hsched₄, hstack₄⟩ := HostStep.exists_dispatch vmresume hartptr
    (h := h₃) (schedRuns_step_of_follow (hsched₃ ▸ hs₃)) rfl
    (by rw [hrsp₃, hsched₃, hcurrent₂, hfirst₃]; decide)
    (by rw [hrsp₃, hsched₃, hcurrent₂, hfirst₃]; decide)
  let h₅ : OneCpu := { h₄ with cpu := ⟨workContext 8 0x301000, h₄.cpu.memory⟩ }
  have hstep₅ : HostStep vmresume hartptr h₄ .work h₅ := .work fun _ _ _ => Agree.refl _ _
  have hsched₅ : h₅.sched = s₃ := hsched₄
  have hstack₅ : h₅.vmmStack (some 1) = ⟨0x300000, vmmStackSize⟩ := by
    rw [← hsecond₃, ← hstack₄]
  have hrsp₅ : h₅.cpu.context.rsp = 0x301000 := rfl
  obtain ⟨h₆, hstep₆, hsched₆, -⟩ := HostStep.exists_dispatch vmresume hartptr
    (h := h₅) (schedRuns_step_of_follow (hsched₅ ▸ hs₄)) rfl
    (by rw [hrsp₅, hsched₅, hcurrent₃, hstack₅]; decide)
    (by rw [hrsp₅, hsched₅, hcurrent₃, hstack₅]; decide)
  exact ⟨h₀, h₁, h₂, h₃, h₄, h₅, h₆, hinit, hstep₁, hstep₂, hstep₃, hstep₄, hstep₅, hstep₆,
    hsched₂ ▸ hcurrent₁, hcontext₂, hsched₄ ▸ hcurrent₃, hsched₆ ▸ hcurrent₄⟩

/-- A run of six steps is one with a processor for each task. -/
theorem context_switch_transparent_yields :
    ∃ (h₀ h : OneCpu) (steps : List (System.Step OneCpu HostAction)), steps.length = 6 ∧
      (virtualRuns 0x400000 fun _ => 0).Run h₀.view
        (steps.filterMap (System.Step.observed OneCpu.view fun _ action => some action)) h.view ∧
      h.view.contexts (some 0) = h.cpu.context := by
  obtain ⟨h₀, h₁, h₂, h₃, h₄, h₅, h₆, hinit, hstep₁, hstep₂, hstep₃, hstep₄, hstep₅, hstep₆, -, -,
    -, hcurrent⟩ := exists_switches 0x400000 fun _ => 0
  have hrun := System.Run.cons (M := hostRuns 0x400000 fun _ => 0) hstep₁
    (.cons hstep₂ (.cons hstep₃ (.cons hstep₄ (.cons hstep₅ (.cons hstep₆ (.nil h₆))))))
  obtain ⟨-, hvirtual, hcontext⟩ := context_switch_transparent hinit hrun
  rw [hcurrent] at hcontext
  exact ⟨h₀, h₆, _, rfl, hvirtual, hcontext⟩

theorem OneCpu.sound_of_reachable (hreach : (hostRuns vmresume hartptr).Reachable h) : h.Sound :=
  hreach.invariant (fun _ hinit => (OneCpu.sound_of_init hinit).1)
    fun _ _ _ hsound hstep => host_simulation.keeps hsound hstep

theorem Virtual.Keeps.refl (v : Virtual) (y : Option TaskId) : v.Keeps v y :=
  ⟨rfl, rfl, Agree.refl _ _⟩

theorem Virtual.Keeps.trans {v v' v'' : Virtual} {y : Option TaskId} (hkeeps : v.Keeps v' y)
    (hkeeps' : v'.Keeps v'' y) : v.Keeps v'' y where
  contexts := hkeeps'.contexts.trans hkeeps.contexts
  vmmStack := hkeeps'.vmmStack.trans hkeeps.vmmStack
  memory := by
    have hmemory := hkeeps'.memory
    rw [hkeeps.contexts, hkeeps.vmmStack] at hmemory
    exact hkeeps.memory.trans hmemory

/-- A step keeps a task, unless the task works. -/
theorem VirtualStep.keeps {v v' : Virtual} {action : HostAction} {y : Option TaskId}
    (hstep : VirtualStep vmresume hartptr v action v') (hy : v.sched.Created y)
    (hidle : action = .work → v.sched.current ≠ y) : v.Keeps v' y := by
  cases hstep with
  | work _ _ hothers => exact hothers y hy (hidle rfl).symm
  | sched _ hkeeps _ => exact hkeeps y hy

/-- A task that starts and is kept is still about to start. -/
theorem Virtual.Starts.keeps {v v' : Virtual} {t : TaskId} (hstarts : v.Starts vmresume hartptr t)
    (hkeeps : v.Keeps v' (some t))
    (hapart : ∀ y, v'.sched.Created y → y ≠ some t →
      ∀ x, (v'.vmmStack (some t)).Contains x → ¬ (v'.vmmStack y).Contains x) :
    v'.Starts vmresume hartptr t where
  rip := by rw [hkeeps.contexts, hstarts.rip]
  regs := by rw [hkeeps.contexts, hstarts.regs]
  rflags := by rw [hkeeps.contexts, hstarts.rflags]
  rsp := by rw [hkeeps.contexts, hkeeps.vmmStack, hstarts.rsp]
  aligned := by rw [hkeeps.contexts, hstarts.aligned]
  caller := by
    rw [hkeeps.contexts, ← hstarts.caller]
    refine readQuad_congr (hkeeps.memory.mono fun x hx => ?_)
    unfold HostStack.From HostStack.Contains
    rw [hstarts.rsp] at hx ⊢
    rw [hstarts.size]
    unfold InBlock vmmStackSize at *
    bv_omega
  size := by rw [hkeeps.vmmStack, hstarts.size]
  apart := hapart

section Idle

variable {x : Option TaskId} {steps : List (System.Step OneCpu HostAction)}

theorem OneCpu.Sound.created (hsound : h.Sound) {action : HostAction}
    (hstep : VirtualStep vmresume hartptr h.view action h'.view) (hx : h.sched.Created x) :
    h'.sched.Created x := by
  cases hstep with
  | work hsched _ _ =>
    have hsame : h'.sched = h.sched := hsched
    rwa [hsame]
  | sched hperform _ _ => exact (hsound.settled.created_iff hperform).mpr (.inl hx)

/-- A task is kept through a run in which it does not work. -/
theorem host_keeps (hsound : h.Sound) (hrun : (hostRuns vmresume hartptr).Run h steps h')
    (hidle : ∀ step ∈ steps, step.label = .work → step.before.sched.current ≠ x)
    (hx : h.sched.Created x) : h.view.Keeps h'.view x := by
  induction hrun with
  | nil h => exact Virtual.Keeps.refl _ _
  | @cons h₁ h₂ h₃ action steps hstep _ ih =>
    have hvirtual : VirtualStep vmresume hartptr h₁.view action h₂.view :=
      host_simulation.observed hsound hstep rfl
    have hkeeps := hvirtual.keeps hx (hidle _ List.mem_cons_self)
    exact hkeeps.trans (ih (host_simulation.keeps hsound hstep)
      (fun step hmem => hidle step (List.mem_cons_of_mem _ hmem)) (hsound.created hvirtual hx))

/-- A task that a run creates, and that does not work in it, is about to start. -/
theorem host_starts {t : TaskId} (hsound : h.Sound)
    (hrun : (hostRuns vmresume hartptr).Run h steps h')
    (hidle : ∀ step ∈ steps, step.label = .work → step.before.sched.current ≠ some t)
    (hnew : ¬ h.sched.Created (some t)) (hcreated : h'.sched.Created (some t)) :
    h'.view.Starts vmresume hartptr t := by
  induction hrun with
  | nil h => exact absurd hcreated hnew
  | @cons h₁ h₂ h₃ action steps hstep hrest ih =>
    have hidle' : ∀ step ∈ steps, step.label = .work → step.before.sched.current ≠ some t :=
      fun step hmem => hidle step (List.mem_cons_of_mem _ hmem)
    have hsound₂ := host_simulation.keeps hsound hstep
    have hvirtual : VirtualStep vmresume hartptr h₁.view action h₂.view :=
      host_simulation.observed hsound hstep rfl
    by_cases hcreated₂ : h₂.sched.Created (some t)
    · have hstarts : h₂.view.Starts vmresume hartptr t := by
        cases hvirtual with
        | work hsched _ _ =>
          have hsame : h₂.sched = h₁.sched := hsched
          exact absurd (hsame ▸ hcreated₂) hnew
        | sched _ _ hstarts => exact hstarts t hcreated₂ hnew
      refine hstarts.keeps (host_keeps hsound₂ hrest hidle' hcreated₂) fun y hy hne => ?_
      have hsound₃ := host_simulation.invariant hsound₂ hrest
      exact hsound₃.apart (some t) y hcreated hy hne.symm
    · exact ih hsound₂ hidle' hcreated₂ hcreated

/-- Whatever other tasks do: if a task does no work between two states of a run and is current
in the second, it has the registers that it had in the first, on the processor or on its stack,
and its stack from the stack pointer on is the same.  If it was not yet created, it enters
`vmresume` with its hart, on a stack that no other task has. -/
theorem dispatch_resumes (hreach : (hostRuns vmresume hartptr).Reachable h)
    (hrun : (hostRuns vmresume hartptr).Run h steps h')
    (hidle : ∀ step ∈ steps, step.label = .work → step.before.sched.current ≠ x)
    (hcurrent : h'.sched.current = x) :
    (h.sched.Created x → h'.cpu.context = h.contexts x ∧ h'.vmmStack x = h.vmmStack x ∧
      Agree ((h.vmmStack x).From (h.contexts x).rsp) h.cpu.memory h'.cpu.memory) ∧
    (¬ h.sched.Created x → ∃ t, x = some t ∧ h'.view.Starts vmresume hartptr t) := by
  have hsound := OneCpu.sound_of_reachable hreach
  have hcreated : h'.sched.Created x := by
    rw [← hcurrent]
    exact (host_simulation.invariant hsound hrun).settled.current_created
  refine ⟨fun hx => ?_, fun hx => ?_⟩
  · have hkeeps := host_keeps hsound hrun hidle hx
    refine ⟨?_, hkeeps.vmmStack, hkeeps.memory⟩
    have hcontexts : h'.contexts x = h.contexts x := hkeeps.contexts
    rw [← hcontexts, ← hcurrent, h'.contexts_current]
  · cases x with
    | none => exact absurd (fun t ht => by cases ht) hx
    | some t => exact ⟨t, rfl, host_starts hsound hrun hidle hx hcreated⟩

end Idle

/-- Another task is created and works, and the first task goes on with its registers. -/
theorem dispatch_resumes_first :
    ∃ (h h' : OneCpu) (steps : List (System.Step OneCpu HostAction)),
      (hostRuns 0x400000 fun _ => 0).Run h steps h' ∧
      (∃ step ∈ steps, step.label = .work ∧ step.before.sched.current = some 1) ∧
      h'.sched.current = some 0 ∧ h'.cpu.context = workContext 7 0x201000 := by
  obtain ⟨h₀, h₁, h₂, h₃, h₄, h₅, h₆, hinit, hstep₁, hstep₂, hstep₃, hstep₄, hstep₅, hstep₆,
    hcurrent₂, hcontext₂, hcurrent₄, hcurrent₆⟩ := exists_switches 0x400000 fun _ => 0
  have hreach : (hostRuns 0x400000 fun _ => 0).Reachable h₂ :=
    .step (.step (.init hinit) hstep₁) hstep₂
  have hrun := System.Run.cons (M := hostRuns 0x400000 fun _ => 0) hstep₃
    (.cons hstep₄ (.cons hstep₅ (.cons hstep₆ (.nil h₆))))
  have hcreated : h₂.sched.Created (some 0) := by
    rw [← hcurrent₂]
    exact (OneCpu.sound_of_reachable hreach).settled.current_created
  have hidle : ∀ step ∈ ([⟨h₂, .sched (.clone 0), h₃⟩, ⟨h₃, .sched .yield, h₄⟩, ⟨h₄, .work, h₅⟩,
      ⟨h₅, .sched .yield, h₆⟩] : List (System.Step OneCpu HostAction)),
      step.label = .work → step.before.sched.current ≠ some 0 := by
    intro step hmem hwork
    simp only [List.mem_cons, List.not_mem_nil, or_false] at hmem
    rcases hmem with rfl | rfl | rfl | rfl
    · cases hwork
    · cases hwork
    · show h₄.sched.current ≠ some 0
      rw [hcurrent₄]
      decide
    · cases hwork
  have hresumes := ((dispatch_resumes hreach hrun hidle hcurrent₆).1 hcreated).1
  refine ⟨h₂, h₆, _, hrun, ⟨_, List.mem_cons_of_mem _ (List.mem_cons_of_mem _
    List.mem_cons_self), rfl, hcurrent₄⟩, hcurrent₆, hresumes.trans ?_⟩
  rw [← hcurrent₂, h₂.contexts_current, hcontext₂]

end Steps

end Systems

end Hyrule
