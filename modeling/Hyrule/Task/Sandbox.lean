import Hyrule.Cpu.Amo
import Hyrule.Cpu.Blocks
import Hyrule.Task.Forest

/-!
# Running the sandbox

The whole sandbox, one translated instruction after the other.  A task runs a
block of its translation cache.  What the block calls is in C: the accesses to
guest memory, the slow path of the atomic operations, and `ecall_callback`, which
dispatches on the table of `syscall.c`.

Tasks switch between blocks and where a system call blocks.  A call that blocks
takes effect when it returns, so an instruction is one step of its task.  Which
block the cache holds for a pc is modelled elsewhere.  Here it may be that of any
instruction word.

What a call gets from outside the sandbox is given with the step: the answers of
the host, the strings that the arguments point to, and what the calls that only
fill guest buffers store and return.
-/

namespace Hyrule

open Lib Lib.Result Lib.X86

/-! ## The sandbox -/

/-- The tasks, the reservations of `lr.w`, and the tasks that have exited. -/
structure Sandbox where
  forest : Forest
  reservations : Reservations
  exited : List TaskId

/-- What a step gets from outside. -/
structure HostSide where
  alloc : Allocator
  /-- The answers to the copies of open files by `clone`. -/
  copies : Fin maxFilesNr → HostAnswer
  /-- The answer to the system call of the host that a call makes. -/
  answer : HostAnswer
  /-- The answer to the `close` of `dup3`. -/
  closed : HostAnswer
  /-- The path argument of `chdir` and `openat`. -/
  path : CString
  execve : ExecveArgs
  hostFiles : CString → Option (List Byte)
  /-- The bytes behind the old end of a heap that `realloc` extends. -/
  added : Nat → Byte
  /-- What a call stores in guest buffers, and where. -/
  stores : List (Word × List Byte)
  /-- What such a call returns. -/
  value : Word
  /-- The registers of the host that a C function leaves behind. -/
  clobbered : Reg → Quad
  /-- The trap vector `mtvec`. -/
  mtvec : Word

namespace Sandbox

/-- The sandbox with other tasks. -/
def withForest (s : Sandbox) (forest : Forest) : Sandbox := { s with forest }

/-- The sandbox with the hart of a task overwritten. -/
def setHart (s : Sandbox) (t : TaskId) (hart : Hart) : Sandbox :=
  s.withForest (s.forest.setVm t { s.forest.vm t with hart })

/-- `mmu_read` of a size, by the hart of a task. -/
def read (s : Sandbox) (t : TaskId) (location : Word) (size : Nat) : Result Nat := do
  let owner ← getLinkedVm s.forest t .vm
  directRead s.forest.heap (s.forest.vm owner).memory.regions location size

/-- `mmu_write` of a size, by the hart of a task. -/
def write (s : Sandbox) (t : TaskId) (location : Word) (size value : Nat) : Result Sandbox := do
  let owner ← getLinkedVm s.forest t .vm
  let heap ← directWrite s.forest.heap (s.forest.vm owner).memory.regions location size value
  return s.withForest { s.forest with heap }

end Sandbox

/-! ## System calls -/

/-- The functions of `handlers`, under their names without `call_`. -/
inductive SysHandler where
  | getcwd | dup | dup3 | fnctl | ioctl | unlinkat | faccessat | chdir | openat | close
  | getdents64 | lseek | read | write | writev | sendfile | pselect | readlinkat
  | exit | exitGroup | setTidAddress | setRobustList | clockGettime | kill | sigaction
  | sigprocmask | getpgid | uname | getrlimit | gettimeofday | getpid | getppid | getuid
  | sysinfo | socket | brk | munmap | clone | execve | mmap | mprotect | madvice | wait4 | statx

/-- The table `handlers`. -/
def handlers (number : Word) : Option SysHandler :=
  match number.toNat with
  | 17 => some .getcwd
  | 23 => some .dup
  | 24 => some .dup3
  | 25 => some .fnctl
  | 29 => some .ioctl
  | 35 => some .unlinkat
  | 48 => some .faccessat
  | 49 => some .chdir
  | 56 => some .openat
  | 57 => some .close
  | 61 => some .getdents64
  | 62 => some .lseek
  | 63 => some .read
  | 64 => some .write
  | 66 => some .writev
  | 71 => some .sendfile
  | 72 => some .pselect
  | 78 => some .readlinkat
  | 93 => some .exit
  | 94 => some .exitGroup
  | 96 => some .setTidAddress
  | 99 => some .setRobustList
  | 113 => some .clockGettime
  | 129 => some .kill
  | 134 => some .sigaction
  | 135 => some .sigprocmask
  | 155 => some .getpgid
  | 160 => some .uname
  | 163 => some .getrlimit
  | 169 => some .gettimeofday
  | 172 => some .getpid
  | 173 => some .getppid
  | 174 | 175 | 176 | 177 => some .getuid
  | 179 => some .sysinfo
  | 198 => some .socket
  | 214 => some .brk
  | 215 => some .munmap
  | 220 => some .clone
  | 221 => some .execve
  | 222 => some .mmap
  | 226 => some .mprotect
  | 233 => some .madvice
  | 260 => some .wait4
  | 291 => some .statx
  | _ => none

/-- `-ESRCH`. -/
def esrch : Word := BitVec.ofInt 32 (-3)

/-- The arguments `a0` to `a5`. -/
abbrev SyscallArgs := Fin 6 → Word

/-- What a system call returns, or nothing where it does not return to its caller,
and the sandbox behind it. -/
abbrev SyscallResult := Result (Option Word × Sandbox)

section Calls

variable (s : Sandbox) (t : TaskId)

/-- A call on the memory that the task uses, which returns a value. -/
def memoryCall
    (call : HostHeap → VirtualMemory → Result (Word × HostHeap × VirtualMemory)) :
    SyscallResult := do
  let owner ← getLinkedVm s.forest t .vm
  let (value, heap, memory) ← call s.forest.heap (s.forest.vm owner).memory
  return (some value, s.withForest
    { s.forest.setVm owner { s.forest.vm owner with memory } with heap })

/-- A call on the file table that the task uses. -/
def fileCall (call : FileCall) : SyscallResult := do
  let dirsOwner ← getLinkedVm s.forest t .fs
  let owner ← getLinkedVm s.forest t .files
  let (value, files) ← call.run (s.forest.vm dirsOwner).dirs (s.forest.vm owner).files
  return (some value, s.withForest (s.forest.setVm owner { s.forest.vm owner with files }))

/-- `do_fcntl_getfd`, `do_fcntl_getfl` and `do_fcntl_setfd`. -/
def fcntlOnHost (fd : Word) (answer : HostAnswer) : SyscallResult := do
  let owner ← getLinkedVm s.forest t .files
  if ← isBadDescriptor (s.forest.vm owner).files fd then return (some ebadf, s)
  else return (some answer.errno, s)

/-- `call_fnctl`. -/
def callFnctl (host : HostSide) (fd cmd : Word) : SyscallResult :=
  match cmd.toNat with
  | 0 | 1030 => fileCall s t (.fcntlDuplicateFd fd host.answer)
  | 1 | 2 | 3 => fcntlOnHost s t fd host.answer
  | _ => return (some enosys, s)

/-- A call that only fills guest buffers. -/
def bufferCall (host : HostSide) : SyscallResult := do
  let forest ← host.stores.foldlM
    (fun forest (address, bytes) => (TaskCall.store address bytes).run forest t) s.forest
  return (some host.value, s.withForest forest)

/-- A handler. -/
def SysHandler.run (host : HostSide) (arg : SyscallArgs) : SysHandler → SyscallResult
  | .clone => do
      let args := ⟨arg 0, arg 1, arg 2, arg 3, arg 4⟩
      let (pid, forest) ← s.forest.cloneTask t args host.alloc host.copies
      return (some pid, s.withForest forest)
  | .execve => do
      return (none, s.withForest (← callExecve s.forest t host.execve host.alloc host.hostFiles))
  | .exit | .exitGroup => return (none, { s with exited := t :: s.exited })
  | .setTidAddress =>
      return (some (s.forest.vm t).pid,
        s.withForest (s.forest.setVm t { s.forest.vm t with setChildTid := arg 0 }))
  | .mmap => memoryCall s t fun heap vm =>
      doMmap heap vm (arg 0) (arg 1) (arg 2) (arg 3) (host.alloc.place heap)
  | .munmap => memoryCall s t fun heap vm => doMunmap heap vm (arg 0) (arg 1)
  | .brk => memoryCall s t fun heap vm =>
      callBrk heap vm (arg 0) (host.alloc.replace heap (heapBase vm)) host.added
  | .chdir => do return (some 0, s.withForest (← (TaskCall.chdir host.path).run s.forest t))
  | .openat => fileCall s t (.openat (arg 0) host.path (arg 2) (arg 3) host.answer)
  | .close => fileCall s t (.close (arg 0) host.answer)
  | .dup => fileCall s t (.dup (arg 0) host.answer)
  | .dup3 => fileCall s t (.dup3 (arg 0) (arg 1) host.closed host.answer)
  | .fnctl => callFnctl s t host (arg 0) (arg 1)
  | .getpid => return (some (s.forest.vm t).tgid, s)
  | .getppid | .getpgid => return (some (s.forest.vm t).ppid, s)
  | .faccessat | .setRobustList | .sigaction | .sigprocmask | .getuid | .mprotect | .madvice
  | .pselect => return (some 0, s)
  | .kill => return (some esrch, s)
  | .sysinfo | .socket => return (some enosys, s)
  | .getcwd | .ioctl | .unlinkat | .getdents64 | .lseek | .read | .write | .writev | .sendfile
  | .readlinkat | .clockGettime | .uname | .getrlimit | .gettimeofday | .wait4 | .statx =>
      bufferCall s t host

/-- `do_syscall`. -/
def doSyscall (host : HostSide) (number : Word) (arg : SyscallArgs) : SyscallResult := do
  check (number < 512)
  (← require (handlers number)).run s t host arg

end Calls

/-! ## The called functions -/

/-- The register `a7`. -/
def a7 : RegisterIndex := 17

/-- The registers `a0` to `a5`. -/
def Hart.syscallArgs (hart : Hart) : SyscallArgs := fun i => hart.registers ⟨10 + i, by omega⟩

/-- The arguments of a clone, in the registers of its caller. -/
def Hart.cloneArgs (hart : Hart) : CloneArgs :=
  ⟨hart.syscallArgs 0, hart.syscallArgs 1, hart.syscallArgs 2, hart.syscallArgs 3,
    hart.syscallArgs 4⟩

section Callbacks

variable (t : TaskId) (host : HostSide) (regs : Reg → Quad) (m : Machine Sandbox)

/-- A C function returns a value in `rax`. -/
def returnValue (value : Quad) : Outcome :=
  .returns (Function.update host.clobbered .rax value)

/-- `mmu_read8`, `mmu_read16` and `mmu_read32`. -/
def mmuRead (size : Nat) : Result (Outcome × Machine Sandbox) := do
  let value ← m.world.read t ((regs .rsi).setWidth 32) size
  return (returnValue host (BitVec.ofNat 64 value), m)

/-- `mmu_write8`, `mmu_write16` and `mmu_write32`. -/
def mmuWrite (size : Nat) : Result (Outcome × Machine Sandbox) := do
  let world ← m.world.write t ((regs .rsi).setWidth 32) size ((regs .rdx).setWidth 32).toNat
  return (.returns host.clobbered, { m with world })

/-- An index of a register, passed as a byte. -/
def indexArgument (value : Quad) : Result RegisterIndex :=
  if h : value.toNat % 256 < 32 then return ⟨value.toNat % 256, h⟩ else throw .outOfBounds

/-- The registers that the slow path copies first.  That of `lr.w` does not read
`rs2`. -/
def Machine.readAmoOperands (m : Machine Sandbox) (funct5 : Nat) (rs1 rs2 : RegisterIndex) :
    Machine Sandbox :=
  if funct5 = 0x2 then m.readOperand rs1 else (m.readOperand rs1).readOperand rs2

/-- The hart where a slow path raises its exception: `sc_slowpath` has written `rd` by
then, and the others read memory first.  The trap goes to `mtvec`. -/
def amoRaised (funct5 : Nat) (rd : RegisterIndex) (hart : Hart) : Hart :=
  { (if funct5 = 0x3 then hart.setRegister rd 0 else hart) with pc := host.mtvec &&& ~~~3 }

/-- `amo_instruction_slowpath`, called with the indices in `rsi`, `rdx` and `rcx`. -/
def amoCallback : Result (Outcome × Machine Sandbox) := do
  let rs1 ← indexArgument (regs .rsi)
  let rs2 ← indexArgument (regs .rdx)
  let rd ← indexArgument (regs .rcx)
  let funct5 := ((regs .r8).setWidth 32).toNat
  let owner ← getLinkedVm m.world.forest t .vm
  let m := m.readAmoOperands funct5 rs1 rs2
  let forest := m.world.forest
  match amoInstructionSlowpath funct5 (forest.vm owner).memory.regions
      ⟨m.hart, forest.heap, m.world.reservations⟩ rs1 rs2 rd with
  | .ok s =>
      let world := { m.world with
        forest := { forest with heap := s.heap }, reservations := s.reservations }
      return (.returns host.clobbered, { m with hart := s.hart, world })
  | .error .exception => return (.leaves, m.withHart (amoRaised host funct5 rd m.hart))
  | .error e => throw e

/-- `ecall_callback`. -/
def ecallCallback : Result (Outcome × Machine Sandbox) := do
  let (value, world) ←
    doSyscall (m.world.setHart t m.hart) t host (m.hart.registers a7) m.hart.syscallArgs
  let hart := (world.forest.vm t).hart
  match value with
  | some value => return (.returns host.clobbered,
      { m with hart := hart.setRegister a0 value, world })
  | none => return (.leaves, { m with hart, world })

/-- The C functions, called by a block that a task runs. -/
def sandboxCallbacks : Callbacks Sandbox
  | .mmuRead8, regs, m => mmuRead t host regs m 1
  | .mmuRead16, regs, m => mmuRead t host regs m 2
  | .mmuRead32, regs, m => mmuRead t host regs m 4
  | .mmuWrite8, regs, m => mmuWrite t host regs m 1
  | .mmuWrite16, regs, m => mmuWrite t host regs m 2
  | .mmuWrite32, regs, m => mmuWrite t host regs m 4
  | .amoInstructionSlowpath, regs, m => amoCallback t host regs m
  | .flushTranslationCache, _, m => return (.returns host.clobbered, m)
  | .ecallCallback, _, m => ecallCallback t host m

end Callbacks

/-! ## Runs -/

/-- A task runs the block of an instruction. -/
structure InstructionRun where
  task : TaskId
  /-- The instruction that the block was translated from, and its address. -/
  address : Word
  instruction : Word
  /-- The address of the hart. -/
  base : Quad
  /-- The other registers of the host. -/
  scratch : Reg → Quad
  host : HostSide

/-- The registers of the host, as `vmresume` sets them. -/
def entryRegs (base : Quad) (scratch : Reg → Quad) : Reg → Quad
  | .r15 => base
  | .r14 => base + offsetOfPc
  | .r12 => base
  | r => scratch r

namespace InstructionRun

variable (run : InstructionRun) (s : Sandbox)

/-- Where a block begins. -/
def entry : X86.State (Machine Sandbox) where
  regs := entryRegs run.base run.scratch
  flags := none
  mem := ⟨(s.forest.vm run.task).hart, s, []⟩

/-- The host code that a block has run so far. -/
def execute (b : TranslatedBlock) (code : HostCode) :
    Except (Trap Fault) (X86.State (Machine Sandbox) × Control) :=
  exec (hartBus run.base (sandboxCallbacks run.task run.host)) b.params code (run.entry s, .run)

/-- The sandbox behind the instruction. -/
def next : Except (Trap Fault) Sandbox := do
  let b ← lift (translate run.address run.instruction)
  let (x, _) ← run.execute s b b.template.code
  return x.mem.world.setHart run.task x.mem.hart

end InstructionRun

/-- The runs of the sandbox: tasks that have not exited run one instruction after the
other. -/
def sandboxRuns : System Sandbox InstructionRun where
  init s := ∃ boot alloc forest, applicationSandboxInit boot alloc = .ok forest ∧
    s = ⟨forest, .initial, []⟩
  step s run s' := run.task < s.forest.nrTasks ∧ run.task ∉ s.exited ∧ run.next s = .ok s'

end Hyrule
