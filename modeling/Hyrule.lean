import Hyrule.Lib.Result
import Hyrule.Lib.Transition
import Hyrule.Lib.Simulation
import Hyrule.Lib.Linked
import Hyrule.Lib.Parts
import Hyrule.Lib.Chain
import Hyrule.Lib.Ownership
import Hyrule.Lib.X86
import Hyrule.Lib.Traced
import Hyrule.Lib.Fifo
import Hyrule.Lib.Stack
import Hyrule.Lib.Numeral
import Hyrule.Lib.Image
import Hyrule.Lib.Locals
import Hyrule.Util.Sort
import Hyrule.Util.TotalOrder
import Hyrule.Util.Word
import Hyrule.Util.Breakpoint
import Hyrule.Util.List
import Hyrule.Util.ListRefinement
import Hyrule.Util.TinyPrintf
import Hyrule.Util.FormatStrings
import Hyrule.Cache.TranslationCache
import Hyrule.Cache.Prefetch
import Hyrule.Cache.PrefetchLimits
import Hyrule.Memory.PmRegion
import Hyrule.Memory.Host
import Hyrule.Memory.VirtualMemory
import Hyrule.Memory.Buffers
import Hyrule.Memory.Access
import Hyrule.Memory.Mapping
import Hyrule.Memory.Flat
import Hyrule.Memory.HeapGrowth
import Hyrule.Memory.Mmu
import Hyrule.Cpu.Hart
import Hyrule.Cpu.Amo
import Hyrule.Cpu.Decode
import Hyrule.Cpu.Templates
import Hyrule.Cpu.Riscv
import Hyrule.Cpu.Blocks
import Hyrule.Cpu.Encoding
import Hyrule.Cpu.Formats
import Hyrule.Cpu.Refinement
import Hyrule.Cpu.Legality
import Hyrule.Cpu.ZeroCheck
import Hyrule.Cpu.MulDiv
import Hyrule.Cpu.MemoryBlocks
import Hyrule.Cache.Coherence
import Hyrule.Sched.Scheduler
import Hyrule.Sched.Wait
import Hyrule.Sched.Safety
import Hyrule.Sched.RoundRobin
import Hyrule.Sched.ContextSwitch
import Hyrule.Sched.Reap
import Hyrule.Sched.ReapOnce
import Hyrule.Fs.Path
import Hyrule.Fs.HostPath
import Hyrule.Fs.FormattedPaths
import Hyrule.Fs.Resolution
import Hyrule.Fs.LongPath
import Hyrule.Fs.Files
import Hyrule.Fs.HostFiles
import Hyrule.Fs.OpenFds
import Hyrule.Fs.Slots
import Hyrule.Task.Program
import Hyrule.Task.Segments
import Hyrule.Task.Loading
import Hyrule.Task.StartupStack
import Hyrule.Task.Forest
import Hyrule.Task.Linkage
import Hyrule.Task.Handles
import Hyrule.Task.Roots
import Hyrule.Task.PathResolution
import Hyrule.Task.PathBuffers
import Hyrule.Task.CloneCopies
import Hyrule.Task.Execve
import Hyrule.Task.ArgumentVectors
import Hyrule.Task.Isolation
import Hyrule.Task.Unmapping
import Hyrule.Task.ProgramBreak
import Hyrule.Task.Capacity
import Hyrule.Task.GuestBuffers
import Hyrule.Task.WorkingDirectory
import Hyrule.Task.CloneFiles
import Hyrule.Task.FileIntegrity
import Hyrule.Task.FileSlots
import Hyrule.Task.Descriptors
import Hyrule.Task.DescriptorChecks
import Hyrule.Task.Sandbox
import Hyrule.Task.Harts
import Hyrule.Task.ZeroRegister
import Hyrule.Task.GuestMemory
import Hyrule.Task.StoreConditional
import Hyrule.Task.Atomics
import Hyrule.Task.CloneRegisters
import Hyrule.Task.Genealogy
import Hyrule.Task.ThreadGroups
import Hyrule.Task.Backing
import Hyrule.Task.Permissions
import Hyrule.Task.Interpreter
import Hyrule.Task.Noninterference
import Hyrule.Task.References
import Hyrule.Task.Outcomes
import Hyrule.Task.Engine
