import Hyrule.Fs.Files
import Hyrule.Sched.Scheduler
import Hyrule.Task.Program

/-!
# The task forest

The resources of the tasks: `clone_task` and `call_execve` of `task.c`,
`get_linked_vm` of `vm.h`, and the start-up of `app.c`.  A task either owns its
memory, its directories and its file table, or it shares that of its parent, as
the flags of its clone say.  A shared resource is found by following the parents
at every use.  The part of the task that would hold its own copy stays zeroed.

A task is never freed: `wait4` only takes it off the list of tasks, so an exited
task still owns what it owned.  Hence the forest only grows.

The strings of a call are given as `strdup` or the caller has copied them from
guest memory.  The translation cache of a hart and the queues of the scheduler
are modelled elsewhere.
-/

namespace Hyrule

open Lib Lib.Result

/-! ## Tasks -/

/-- `parent_vm` and the flags of the clone. -/
structure Links where
  parent : Option TaskId
  clonedVm : Bool
  clonedFiles : Bool
  clonedFs : Bool

/-- The fields under `CLONE_FS`. -/
structure Directories where
  root : CString
  cwd : CString
deriving DecidableEq

/-- `struct virtual_machine`, with its hart. -/
structure Vm where
  hart : Hart
  memory : VirtualMemory
  files : FileTable
  dirs : Directories
  pid : Word
  ppid : Word
  tgid : Word
  links : Links
  refCount : Word
  setChildTid : Word

/-- The directories of a zeroed `struct virtual_machine`. -/
def Directories.empty : Directories := ⟨.empty, .empty⟩

/-- `allocate_virtual_machine_descriptor`. -/
def Vm.zero : Vm where
  hart := .initial 0
  memory := .empty
  files := .zero
  dirs := .empty
  pid := 0
  ppid := 0
  tgid := 0
  links := ⟨none, false, false, false⟩
  refCount := 0
  setChildTid := 0

/-- The tasks, `gpid_counter`, and the heap of the host. -/
structure Forest where
  vm : TaskId → Vm
  nrTasks : Nat
  gpidCounter : Word
  heap : HostHeap

/-- The forest with a task overwritten. -/
def Forest.setVm (s : Forest) (t : TaskId) (vm : Vm) : Forest :=
  { s with vm := Function.update s.vm t vm }

/-- `enum linkage_hint`. -/
inductive LinkageHint where
  | native
  | vm
  | files
  | fs
deriving DecidableEq

/-- `should_go` of `get_linked_vm`. -/
def Links.shouldGo (links : Links) : LinkageHint → Bool
  | .native => false
  | .vm => links.clonedVm
  | .files => links.clonedFiles
  | .fs => links.clonedFs

/-- The loop of `get_linked_vm`, for as many tasks. -/
def linkedVmLoop (s : Forest) (hint : LinkageHint) : Nat → TaskId → Result TaskId
  | 0, _ => throw .divergence
  | fuel + 1, t =>
      if (s.vm t).links.shouldGo hint then do
        linkedVmLoop s hint fuel (← require (s.vm t).links.parent)
      else return t

/-- `get_linked_vm`.  A loop over more tasks than there are does not end. -/
def getLinkedVm (s : Forest) (t : TaskId) (hint : LinkageHint) : Result TaskId :=
  linkedVmLoop s hint s.nrTasks t

/-- `reference_task`. -/
def referenceTask (vm : Vm) : Vm := { vm with refCount := vm.refCount + 1 }

/-- `deference_task`. -/
def deferenceTask (vm : Vm) : Vm := { vm with refCount := vm.refCount - 1 }

/-! ## Clone -/

/-- The flags of `sched.h`. -/
def cloneVm : Word := 0x100
def cloneFs : Word := 0x200
def cloneFiles : Word := 0x400
def cloneChildSettid : Word := 0x1000000

/-- The arguments of `call_clone`.  Nothing reads `ptid_addr` and `tls_addr`. -/
structure CloneArgs where
  flags : Word
  childStack : Word
  ptidAddr : Word
  tlsAddr : Word
  ctidAddr : Word

/-- `task_linkage_init`. -/
def taskLinkageInit (currentId : TaskId) (pid : Word) (current child : Vm) (flags : Word) :
    Vm × Vm :=
  (referenceTask current,
    { child with
      pid
      ppid := current.pid
      tgid := if hasFlag flags cloneThread then current.pid else pid
      links := { child.links with parent := some currentId } })

/-- `task_cpu_init`. -/
def taskCpuInit (current child : Vm) : Vm :=
  { child with hart :=
    { current.hart.setRegister a0 0 with pc := current.hart.pc + 4, hartId := 0 } }

/-- `preallocate_physical_memory` of an `int`.  A negative size is too large for the
host. -/
def preallocateInt (alloc : Allocator) (heap : HostHeap) (nrBytes : Int) :
    HostHeap × Option HostPointer :=
  if nrBytes < 0 then (heap, none)
  else heap.preallocatePhysicalMemory nrBytes.toNat (alloc.place heap)

/-- The loop body of `duplicate_virtual_memory`. -/
def duplicateRegion (alloc : Allocator) (heap : HostHeap) (pmr : PmRegion) :
    Result (HostHeap × PmRegion) := do
  let pmrLen := (pmr.addrHigh - pmr.addrLow).toInt
  let (heap, hostBase) := preallocateInt alloc heap pmrLen
  let dst ← require hostBase
  let src ← deref pmr.hostBase
  let bytes ← heap.load src 0 pmrLen.toNat
  return (← heap.store dst 0 bytes, { pmr with hostBase })

/-- The loop of `duplicate_virtual_memory`. -/
def duplicateRegions (alloc : Allocator) :
    HostHeap → List PmRegion → Result (HostHeap × List PmRegion)
  | heap, [] => return (heap, [])
  | heap, pmr :: rest => do
      let (heap, pmr) ← duplicateRegion alloc heap pmr
      let (heap, rest) ← duplicateRegions alloc heap rest
      return (heap, pmr :: rest)

/-- `duplicate_virtual_memory`.  A handle is taken over if its slot is a registered
one. -/
def duplicateVirtualMemory (alloc : Allocator) (heap : HostHeap) (current : VirtualMemory) :
    Result (HostHeap × VirtualMemory) := do
  let (heap, pmrOps) ← duplicateRegions alloc heap current.regions.pmrOps
  return (heap,
    { regions := ⟨pmrOps, []⟩
      vmaHeap := current.vmaHeap.filter (· < current.regions.nrPmrOps)
      vmaStack := current.vmaStack.filter (· < current.regions.nrPmrOps) })

/-- `task_vm_init`. -/
def taskVmInit (alloc : Allocator) (heap : HostHeap) (current child : Vm) (flags : Word) :
    Result (HostHeap × Vm × Vm) :=
  if hasFlag flags cloneVm then
    return (heap, referenceTask current,
      { child with links := { child.links with clonedVm := true } })
  else do
    let (heap, memory) ← duplicateVirtualMemory alloc heap current.memory
    return (heap, current, { child with memory })

/-- `task_fs_init`. -/
def taskFsInit (current child : Vm) (flags : Word) : Vm × Vm :=
  if hasFlag flags cloneFs then
    (referenceTask current, { child with links := { child.links with clonedFs := true } })
  else (current, { child with dirs := current.dirs })

/-- `task_files_init`, with what the host answers to the copy of each entry. -/
def taskFilesInit (current child : Vm) (flags : Word) (answers : Fin maxFilesNr → HostAnswer) :
    Result (Vm × Vm) :=
  if hasFlag flags cloneFiles then
    return (referenceTask current,
      { child with links := { child.links with clonedFiles := true } })
  else do return (current, { child with files := ← duplicateFiles current.files answers })

/-- `task_threads_init`. -/
def taskThreadsInit (child : Vm) (args : CloneArgs) : Result Vm :=
  let child :=
    if hasFlag args.flags cloneChildSettid then { child with setChildTid := args.ctidAddr }
    else child
  if hasFlag args.flags cloneThread then do
    check (args.childStack ≠ 0)
    return { child with hart := child.hart.setRegister sp args.childStack }
  else return child

/-- `clone_task`, up to the scheduling of the child: the pid of the child, and the
forest. -/
def Forest.cloneTask (s : Forest) (t : TaskId) (args : CloneArgs) (alloc : Allocator)
    (answers : Fin maxFilesNr → HostAnswer) : Result (Word × Forest) := do
  let linked := taskLinkageInit t s.gpidCounter (s.vm t) .zero args.flags
  let child := taskCpuInit linked.1 linked.2
  let (heap, current, child) ← taskVmInit alloc s.heap linked.1 child args.flags
  let rooted := taskFsInit current child args.flags
  let (current, child) ← taskFilesInit rooted.1 rooted.2 args.flags answers
  let child ← taskThreadsInit child args
  return (child.pid,
    { vm := Function.update (Function.update s.vm t current) s.nrTasks child
      nrTasks := s.nrTasks + 1
      gpidCounter := s.gpidCounter + 1
      heap })

/-! ## Execve -/

/-- `reclaim_virtual_memory`. -/
def reclaimTask (s : Forest) (t : TaskId) : Result Forest :=
  if (s.vm t).links.clonedVm then do
    let parent ← require (s.vm t).links.parent
    let s := s.setVm parent (deferenceTask (s.vm parent))
    return s.setVm t { s.vm t with links := { (s.vm t).links with clonedVm := false } }
  else
    let (heap, memory) := reclaimVirtualMemory s.heap (s.vm t).memory
    return { s.setVm t { s.vm t with memory } with heap }

/-- `host_cpath` of `call_execve`.  `guest_cpath` is computed as in `call_chdir`. -/
def execveHostPath (dirs : Directories) (filename : CString) : Result CString := do
  let guestCpath ← chdirPath dirs.cwd filename
  canonicalizePathName (← formatPath dirs.root guestCpath)

/-- `reset_registers`. -/
def Hart.reset (hart : Hart) : Hart := { hart with registers := fun _ => 0, pc := 0 }

/-- The strings that the arguments of `call_execve` point to. -/
structure ExecveArgs where
  filename : CString
  argv : List CString
  envp : List CString

/-- `host_envp`.  Its terminator is written behind the array if there are too many
strings.  `host_argv` is cut instead. -/
def hostEnvp (envp : List CString) : Result (List CString) :=
  if envp.length < maxNrEnvp then return envp else throw .outOfBounds

/-- `program_init` and `env_setup` on a task. -/
def loadTask (alloc : Allocator) (s : Forest) (t : TaskId) (content : Option (List Byte))
    (argv envp : List CString) : Result Forest := do
  let (heap, hart, memory) ← programInit alloc s.heap (s.vm t).hart (s.vm t).memory content
  let (heap, hart) ← envSetup heap hart memory argv envp
  return { s.setVm t { s.vm t with hart, memory } with heap }

/-- `call_execve`, up to the jump into the new program, with the files of the host. -/
def callExecve (s : Forest) (t : TaskId) (args : ExecveArgs) (alloc : Allocator)
    (hostFiles : CString → Option (List Byte)) : Result Forest := do
  let argv := args.argv.take (maxNrArgv - 1)
  let envp ← hostEnvp args.envp
  let owner ← getLinkedVm s t .vm
  let s ← reclaimTask s owner
  let hostCpath ← execveHostPath (s.vm owner).dirs args.filename
  let s := s.setVm t { s.vm t with hart := (s.vm t).hart.reset }
  loadTask alloc s owner (hostFiles hostCpath) argv envp

/-! ## Start-up -/

/-- What the process starts with. -/
structure Boot where
  /-- The content of the program, if it can be opened. -/
  app : Option (List Byte)
  argv : List CString
  envp : List CString
  /-- The environment variable `ROOT`. -/
  root : Option CString
  stdin : HostAnswer
  stdout : HostAnswer
  stderr : HostAnswer

/-- The string `"/dev/stdin"`. -/
def devStdin : CString := .ofBuffer [47, 100, 101, 118, 47, 115, 116, 100, 105, 110]

/-- The string `"/dev/stdout"`. -/
def devStdout : CString := .ofBuffer [47, 100, 101, 118, 47, 115, 116, 100, 111, 117, 116]

/-- The string `"/dev/stderr"`. -/
def devStderr : CString := .ofBuffer [47, 100, 101, 118, 47, 115, 116, 100, 101, 114, 114]

/-- An `openat` of `vfs_init`, which has to return a given descriptor. -/
def openStandard (dirs : Directories) (t : FileTable) (path : CString) (flags : Word)
    (answer : HostAnswer) (fd : Word) : Result FileTable := do
  let (rv, t) ← doOpenat dirs.root dirs.cwd t atFdcwd path flags 0 answer
  check (fd = rv)
  return t

/-- `vfs_init`. -/
def vfsInit (boot : Boot) (dirs : Directories) (t : FileTable) : Result FileTable := do
  let t ← openStandard dirs t devStdin 0 boot.stdin 0
  let t ← openStandard dirs t devStdout 1 boot.stdout 1
  openStandard dirs t devStderr 1 boot.stderr 2

/-- `application_sandbox_init`. -/
def applicationSandboxInit (boot : Boot) (alloc : Allocator) : Result Forest := do
  let s : Forest := ⟨fun _ => .zero, 1, 1, fun _ => none⟩
  let s ← loadTask alloc s 0 boot.app boot.argv boot.envp
  let root ← copyName (← require boot.root)
  let files ← vfsInit boot { (s.vm 0).dirs with root } (s.vm 0).files
  let pid := s.gpidCounter
  return { s.setVm 0 { s.vm 0 with
    dirs := ⟨root, slashString⟩, files, pid, ppid := pid, tgid := pid } with
    gpidCounter := s.gpidCounter + 1 }

/-! ## Runs -/

/-- The table after a call, if it returns. -/
def FileCall.run (dirs : Directories) (t : FileTable) : FileCall → Result (Word × FileTable)
  | .openat dirfd path flags mode answer =>
      doOpenat dirs.root dirs.cwd t dirfd path flags mode answer
  | .close fd answer => doClose t fd answer
  | .dup fd answer => callDup t fd answer
  | .dup3 oldFd newFd closed answer => callDup3 t oldFd newFd closed answer
  | .fcntlDuplicateFd fd answer => doFcntlDuplicateFd t fd answer

/-- What a task does. -/
inductive TaskCall where
  | clone (args : CloneArgs) (alloc : Allocator) (answers : Fin maxFilesNr → HostAnswer)
  | chdir (path : CString)
  | execve (args : ExecveArgs) (alloc : Allocator) (hostFiles : CString → Option (List Byte))
  | mmap (proposalAddr len prot flags : Word) (alloc : Allocator)
  | munmap (addr len : Word)
  | brk (addr : Word) (alloc : Allocator) (added : Nat → Byte)
  /-- Bytes are stored to guest memory, by an instruction or by a call. -/
  | store (address : Word) (bytes : List Byte)
  | file (call : FileCall)
  /-- Instructions change the registers. -/
  | instructions (registers : RegisterIndex → Word) (pc : Word)

/-- A call on the memory that the task uses. -/
def onMemory (s : Forest) (t : TaskId)
    (call : HostHeap → VirtualMemory → Result (HostHeap × VirtualMemory)) : Result Forest := do
  let owner ← getLinkedVm s t .vm
  let (heap, memory) ← call s.heap (s.vm owner).memory
  return { s.setVm owner { s.vm owner with memory } with heap }

/-- The forest after a call of a task, if it returns. -/
def TaskCall.run (s : Forest) (t : TaskId) : TaskCall → Result Forest
  | .clone args alloc answers => return (← s.cloneTask t args alloc answers).2
  | .chdir path => do
      let owner ← getLinkedVm s t .fs
      let cwd ← callChdir (s.vm owner).dirs.cwd path
      return s.setVm owner { s.vm owner with dirs := { (s.vm owner).dirs with cwd } }
  | .execve args alloc hostFiles => callExecve s t args alloc hostFiles
  | .mmap proposalAddr len prot flags alloc => onMemory s t fun heap vm =>
      return (← doMmap heap vm proposalAddr len prot flags (alloc.place heap)).2
  | .munmap addr len => onMemory s t fun heap vm => return (← doMunmap heap vm addr len).2
  | .brk addr alloc added => onMemory s t fun heap vm =>
      return (← callBrk heap vm addr (alloc.replace heap (heapBase vm)) added).2
  | .store address bytes => onMemory s t fun heap vm => do
      let (base, offset) ← userWorldPointer vm.regions address
      return (← heap.store base offset bytes, vm)
  | .file call => do
      let dirsOwner ← getLinkedVm s t .fs
      let owner ← getLinkedVm s t .files
      let (_, files) ← call.run (s.vm dirsOwner).dirs (s.vm owner).files
      return s.setVm owner { s.vm owner with files }
  | .instructions registers pc =>
      return s.setVm t { s.vm t with hart := { (s.vm t).hart with registers, pc } }

/-- The runs from the start-up with the given `ROOT` in which every call returns. -/
def forestRuns (root : CString) : System Forest (TaskId × TaskCall) where
  init s := ∃ boot alloc, boot.root = some root ∧ applicationSandboxInit boot alloc = .ok s
  step s call s' := call.1 < s.nrTasks ∧ call.2.run s call.1 = .ok s'

/-- The string `"/x"`. -/
def slashX : CString := .ofBuffer [47, 120]

/-- A start-up with a program without segments and a given `ROOT`. -/
def bareBoot (root : CString) : Boot :=
  ⟨some (bareElf 0), [], [], some root, .returns 3, .returns 4, .returns 5⟩

end Hyrule
