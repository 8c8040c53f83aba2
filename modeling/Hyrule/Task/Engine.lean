import Hyrule.Lib.Simulation
import Hyrule.Cache.Coherence
import Hyrule.Task.Outcomes
import Hyrule.Task.Segments

/-!
# The translating engine

Tasks run inside their translation caches.  `vmresume` translates the unit at the pc
of a task and enters its block.  A block falls through to what stands behind it in the
cache, or control goes back to the VMM: behind a jump, behind a `fence.i` or a system
call, at a jumper, and where an exception leaves the block.

`Engine` has the sandbox, and for every task the cache, the offset that control is at,
and the registers of the host.  What runs at an offset is what the processor makes of
the bytes there (`Processor`), whatever they were translated from.

The plain machine fetches the word at the pc from guest memory, translates it and runs
its block, for every instruction anew (`fetchRuns`).  `engine_transparent` says that the
engine does nothing else, in any order of the tasks, if guests run a `fence.i` before
they run code that they changed.  The other conditions are those under which the cache
works at all.  `engine_interprets` goes on to the instruction set.
-/

namespace Hyrule

open Lib Lib.X86 Riscv

/-! ## The engine -/

deriving instance DecidableEq for TranslatedBlock

/-- What stands at an offset of a cache. -/
inductive HostUnit where
  | block (b : TranslatedBlock)
  | jumper
deriving DecidableEq

variable {jumper : Block} (asm : Assembly jumper)

/-- The processor of the host, which runs the bytes of a block as the code of its
template. -/
structure Processor where
  read : (Nat → Byte) → Nat → Option HostUnit
  block : ∀ {code : Nat → Byte} {offset : Nat} {b : TranslatedBlock} {t : Translation jumper},
    asm.translation b = some t → BlockAt code offset t → read code offset = some (.block b)
  jumper : ∀ {tc : TranslationCache} {offset : Nat}, JumperAt jumper tc offset →
    read tc.code offset = some .jumper

/-- The sandbox with the caches of its tasks. -/
structure Engine where
  sandbox : Sandbox
  cache : TaskId → TranslationCache
  /-- The offset in the cache of a task that control is at, unless it is in the VMM. -/
  control : TaskId → Option Nat
  /-- The registers of the host, while a task is in its cache. -/
  regs : TaskId → Reg → Quad
  /-- The words that an address held when the hart translated, since its last flush. -/
  seen : TaskId → Word → List Word

/-- The words that `mmu_instruction_read32` returns for a task, in machine mode. -/
def Sandbox.words (s : Sandbox) (t : TaskId) (address : Word) : Option Word :=
  match s.read t address 4 with
  | .ok value => some (BitVec.ofNat 32 value)
  | .error _ => none

namespace Engine

variable (base : TaskId → Quad) (e : Engine)

/-- The pc of a task. -/
def pc (t : TaskId) : Word := (e.sandbox.forest.vm t).hart.pc

/-- `vmresume`, up to and with the jump into the cache. -/
def resume (t : TaskId) (scratch : Reg → Quad) : Result Engine := do
  let (cache, offset) ← vmresume (asm.guestCode (e.sandbox.words t)) (e.pc t) (e.cache t)
  return { e with
    cache := Function.update e.cache t cache
    control := Function.update e.control t (some offset)
    regs := Function.update e.regs t (entryRegs (base t) scratch)
    seen := Function.update e.seen t fun p => (e.sandbox.words t p).toList ++ e.seen t p }

/-- The hart has flushed its cache: `fence.i` calls `flush_translation_cache`, and so do
`raise_trap_raw` and `call_execve` before they leave the block.  A hart that leaves its
block by `exit` is not resumed. -/
def flushed (b : TranslatedBlock) (c : Control) : Bool :=
  c = .left || b.template = .fenceI

/-- Where control is behind a block at an offset. -/
def behind (offset : Nat) (b : TranslatedBlock) (c : Control) : Option Nat :=
  if b.template.fallsThrough && c != .left then some (offset + (asm.block b.template).size)
  else none

/-- The engine behind a block of a task. -/
def after (t : TaskId) (offset : Nat) (b : TranslatedBlock) (x : X86.State (Machine Sandbox))
    (c : Control) : Engine where
  sandbox := x.mem.world.setHart t x.mem.hart
  cache :=
    if flushed b c then Function.update e.cache t (flushTranslationCache (e.cache t)) else e.cache
  control := Function.update e.control t (behind asm offset b c)
  regs := Function.update e.regs t x.regs
  seen := if flushed b c then Function.update e.seen t fun _ => [] else e.seen

/-- A task runs the block at an offset. -/
def block (t : TaskId) (host : HostSide) (offset : Nat) (b : TranslatedBlock) :
    Except (Trap Fault) Engine := do
  let entry : X86.State (Machine Sandbox) :=
    ⟨e.regs t, none, ⟨(e.sandbox.forest.vm t).hart, e.sandbox, []⟩⟩
  let (x, c) ← exec (hartBus (base t) (sandboxCallbacks t host)) b.params b.template.code
    (entry, .run)
  return e.after asm t offset b x c

/-- A jumper leads to the VMM. -/
def leave (t : TaskId) : Engine := { e with control := Function.update e.control t none }

end Engine

/-- What a task does next. -/
inductive EngineStep where
  /-- The VMM resumes it. -/
  | resume (t : TaskId) (scratch : Reg → Quad)
  /-- It runs what stands in its cache. -/
  | run (t : TaskId) (host : HostSide)

variable {asm} (cpu : Processor asm) (base : TaskId → Quad)

/-- What stands where control is in the cache of a task. -/
def Engine.current (e : Engine) (t : TaskId) : Option HostUnit :=
  (e.control t).bind (cpu.read (e.cache t).code)

/-- The runs of the engine. -/
def engineRuns : System Engine EngineStep where
  init e := sandboxRuns.init e.sandbox ∧ (∀ t, e.cache t = .initial) ∧ (∀ t, e.control t = none) ∧
    ∀ t p, e.seen t p = []
  step e step e' :=
    match step with
    | .resume t scratch => t < e.sandbox.forest.nrTasks ∧ t ∉ e.sandbox.exited ∧
        e.control t = none ∧ e.resume asm base t scratch = .ok e'
    | .run t host => t < e.sandbox.forest.nrTasks ∧ t ∉ e.sandbox.exited ∧
        ∃ offset, e.control t = some offset ∧
          (cpu.read (e.cache t).code offset = some .jumper ∧ e' = e.leave t ∨
            ∃ b, cpu.read (e.cache t).code offset = some (.block b) ∧
              e.block asm base t host offset b = .ok e')

/-- The runs of the plain machine. -/
def fetchRuns : System Sandbox InstructionRun where
  init := sandboxRuns.init
  step s run s' := run.task < s.forest.nrTasks ∧ run.task ∉ s.exited ∧ run.fetchNext s = .ok s'

/-- The run of an instruction that a step of the engine is. -/
def Engine.observe (e : Engine) : EngineStep → Option InstructionRun
  | .resume .. => none
  | .run t host =>
      match e.current cpu t with
      | some (.block _) =>
          some ⟨t, e.pc t, (e.sandbox.words t (e.pc t)).getD 0, base t, e.regs t, host⟩
      | _ => none

/-- Steps that the caches are made for.  A unit lies in the window of its hart and does not
clash.  The word at the pc of a block is an instruction, and it has not changed since the
hart translated.  No `execve` moves the pc of another task. -/
def Engine.Regular (window : TaskId → Word) (e : Engine) : EngineStep → Prop
  | .resume t _ =>
      (∀ p, (asm.guestCode (e.sandbox.words t)).InUnit (e.pc t) p → InWindow (window t) p) ∧
        ¬ (asm.guestCode (e.sandbox.words t)).UnitClash (e.cache t) (e.pc t)
  | .run t _ => e.current cpu t ≠ some .jumper →
      ∃ w i, e.sandbox.words t (e.pc t) = some w ∧ decode w = some i ∧
        (∀ w' ∈ e.seen t (e.pc t), w' = w) ∧
        (i = .ecall → handlers ((e.sandbox.forest.vm t).hart.registers a7) = some .execve →
          getLinkedVm e.sandbox.forest t .vm = .ok t)

/-! ## The invariant -/

/-- Control is at the block of the pc, or at a jumper. -/
structure Engine.Inside (jumper : Block) (base : TaskId → Quad) (e : Engine) (t : TaskId)
    (offset : Nat) : Prop where
  task : t < e.sandbox.forest.nrTasks
  entered : Entered (base t) (e.regs t)
  atPc : (∃ item ∈ (e.cache t).pcMappings, item.tcOffset.toNat = offset ∧ item.guestPc = e.pc t) ∨
    JumperAt jumper (e.cache t) offset

/-- The caches keep blocks of words that were seen, and control is where it should be. -/
structure Engine.Sound (asm : Assembly jumper) (base : TaskId → Quad) (window : TaskId → Word)
    (e : Engine) : Prop where
  zero : e.sandbox.ZeroHarts
  kept : ∀ t, ∃ made : GuestCode jumper,
    made.Keeps (window t) (asm.MadeFrom (e.seen t)) (e.cache t) none
  inside : ∀ t offset, e.control t = some offset → e.Inside jumper base t offset

/-- `vmresume` returns a cache with a block for the pc. -/
theorem vmresume_ok {guest : GuestCode jumper} {pc : Word} {tc tc' : TranslationCache}
    {offset : Nat} (h : vmresume guest pc tc = .ok (tc', offset)) :
    prefetchInstructions guest pc tc = .ok tc' ∧
      ∃ item ∈ tc'.pcMappings, item.tcOffset.toNat = offset ∧ item.guestPc = pc := by
  obtain ⟨tc₁, hprefetch, h⟩ := Result.bind_eq_ok.mp h
  obtain ⟨found, hsearch, h⟩ := Result.bind_eq_ok.mp h
  cases found with
  | none => cases h
  | some item =>
    cases h
    obtain ⟨hmem, hpc⟩ := searchTranslationItem_sound hsearch
    exact ⟨hprefetch, item, hmem, rfl, hpc⟩

theorem Assembly.ofWord_eq_some {address w : Word} {tr : Translation jumper}
    (h : asm.ofWord address w = some tr) :
    ∃ b, translate address w = .ok b ∧ asm.translation b = some tr := by
  simp only [Assembly.ofWord, Assembly.guestCode, Option.bind_eq_bind,
    Option.bind_some] at h
  split at h
  next b hb => exact ⟨b, hb, h⟩
  next => cases h

section Sound

variable {cpu base} {window : TaskId → Word} {e e' : Engine} {t : TaskId} {host : HostSide}
  {scratch : Reg → Quad} {offset : Nat} {b : TranslatedBlock}

/-- A task that another one's step leaves alone. -/
theorem Engine.Inside.of_eq (h : e.Inside jumper base t offset)
    (htasks : e.sandbox.forest.nrTasks ≤ e'.sandbox.forest.nrTasks) (hpc : e'.pc t = e.pc t)
    (hcache : e'.cache t = e.cache t) (hregs : e'.regs t = e.regs t) :
    e'.Inside jumper base t offset where
  task := Nat.lt_of_lt_of_le h.task htasks
  entered := hregs ▸ h.entered
  atPc := by
    rw [hpc, hcache]
    exact h.atPc

theorem Engine.resume_sandbox (h : e.resume asm base t scratch = .ok e') :
    e'.sandbox = e.sandbox := by
  obtain ⟨⟨cache, offset⟩, -, h⟩ := Result.bind_eq_ok.mp h
  cases h
  rfl

/-- The VMM resumes a task. -/
theorem Engine.Sound.resume (h : e.Sound asm base window)
    (ht : t < e.sandbox.forest.nrTasks)
    (hregular : e.Regular cpu window (.resume t scratch))
    (hresume : e.resume asm base t scratch = .ok e') : e'.Sound asm base window := by
  obtain ⟨⟨cache, offset⟩, hvmresume, hresume⟩ := Result.bind_eq_ok.mp hresume
  cases hresume
  obtain ⟨hprefetch, hitem⟩ := vmresume_ok hvmresume
  obtain ⟨hwindow, hclash⟩ := hregular
  refine ⟨h.zero, fun u => ?_, fun u offset' hcontrol => ?_⟩
  · by_cases hu : u = t
    · subst hu
      obtain ⟨made, hkeeps⟩ := h.kept u
      simp only [Function.update_self]
      exact hkeeps.resume asm hwindow hclash hprefetch
    · simp only [Function.update_of_ne hu]
      exact h.kept u
  · by_cases hu : u = t
    · subst hu
      simp only [Function.update_self, Option.some.injEq] at hcontrol
      subst hcontrol
      refine ⟨ht, ?_, Or.inl ?_⟩
      · simp only [Function.update_self]
        exact ⟨rfl, rfl, rfl⟩
      · simp only [Function.update_self]
        exact hitem
    · simp only [Function.update_of_ne hu] at hcontrol
      exact (h.inside u offset' hcontrol).of_eq (Nat.le_refl _) rfl (Function.update_of_ne hu ..)
        (Function.update_of_ne hu ..)

/-- The VMM is entered through a jumper. -/
theorem Engine.Sound.leave (h : e.Sound asm base window) (t : TaskId) :
    (e.leave t).Sound asm base window := by
  refine ⟨h.zero, h.kept, fun u offset hcontrol => ?_⟩
  by_cases hu : u = t
  · subst hu
    simp [Engine.leave] at hcontrol
  · simp only [Engine.leave, Function.update_of_ne hu] at hcontrol
    exact (h.inside u offset hcontrol).of_eq (Nat.le_refl _) rfl rfl rfl

/-- The block that runs was made from a word that was seen at the pc. -/
theorem Engine.Sound.current (h : e.Sound asm base window) (hcontrol : e.control t = some offset)
    (hread : cpu.read (e.cache t).code offset = some (.block b)) :
    ∃ made : GuestCode jumper, ∃ item ∈ (e.cache t).pcMappings, ∃ tr,
      made.Keeps (window t) (asm.MadeFrom (e.seen t)) (e.cache t) none ∧
      item.tcOffset.toNat = offset ∧ item.guestPc = e.pc t ∧ made (e.pc t) = some tr ∧
      asm.translation b = some tr ∧ ∃ w ∈ e.seen t (e.pc t), translate (e.pc t) w = .ok b := by
  rcases (h.inside t offset hcontrol).atPc with ⟨item, hitem, rfl, hpc⟩ | hjumper
  · obtain ⟨made, hkeeps⟩ := h.kept t
    obtain ⟨tr, hmade, ⟨w, hw, hof⟩, hblock⟩ := hkeeps.content item hitem
    obtain ⟨b', hb', htr⟩ := asm.ofWord_eq_some hof
    rw [cpu.block htr hblock] at hread
    cases hread
    rw [hpc] at hmade hw hb'
    exact ⟨made, item, hitem, tr, hkeeps, rfl, hpc, hmade, htr, w, hw, hb'⟩
  · rw [cpu.jumper hjumper] at hread
    cases hread

/-- The run of the instruction at the pc of a task. -/
def Engine.instructionRun (base : TaskId → Quad) (e : Engine) (t : TaskId) (host : HostSide)
    (w : Word) : InstructionRun :=
  ⟨t, e.pc t, w, base t, e.regs t, host⟩

theorem entryRegs_eq {base : Quad} {regs : Reg → Quad} (h : Entered base regs) :
    entryRegs base regs = regs := by
  funext r
  cases r with
  | r15 => exact h.r15.symm
  | r14 => exact h.r14.symm
  | r12 => exact h.r12.symm
  | _ => rfl

/-- A block that the engine runs. -/
theorem Engine.block_ok (hentered : Entered (base t) (e.regs t)) (w : Word)
    (hblock : e.block asm base t host offset b = .ok e') :
    ∃ x c, (e.instructionRun base t host w).execute e.sandbox b b.template.code = .ok (x, c) ∧
      e' = e.after asm t offset b x c := by
  obtain ⟨⟨x, c⟩, hexec, hblock⟩ := X86.bind_eq_ok.mp hblock
  cases hblock
  refine ⟨x, c, ?_, rfl⟩
  rw [← hexec, InstructionRun.execute, InstructionRun.entry]
  simp only [Engine.instructionRun, entryRegs_eq hentered]

/-- The word at the pc is what the run fetches. -/
theorem Engine.fetchNext_eq {w : Word} (hw : e.sandbox.words t (e.pc t) = some w) :
    (e.instructionRun base t host w).fetchNext e.sandbox =
      (e.instructionRun base t host w).next e.sandbox := by
  have hfetch : e.sandbox.fetch t = .ok w := by
    simp only [Sandbox.words] at hw
    split at hw
    next value hread =>
      cases hw
      exact Result.bind_eq_ok.mpr ⟨value, hread, rfl⟩
    next => cases hw
  rw [InstructionRun.fetchNext]
  simp only [Engine.instructionRun, hfetch]
  rfl

/-- A block that runs in the cache is the block of the word at the pc. -/
theorem Engine.Sound.translated (h : e.Sound asm base window)
    (hcontrol : e.control t = some offset)
    (hread : cpu.read (e.cache t).code offset = some (.block b)) {w : Word}
    (hseen : ∀ w' ∈ e.seen t (e.pc t), w' = w) : translate (e.pc t) w = .ok b := by
  obtain ⟨-, -, -, -, -, -, -, -, -, w', hw', hb⟩ := h.current hcontrol hread
  rwa [hseen w' hw'] at hb

/-- A block that falls through comes to the block of the next instruction, or to a
jumper. -/
theorem Engine.Sound.behind (h : e.Sound asm base window) (hcontrol : e.control t = some offset)
    (hread : cpu.read (e.cache t).code offset = some (.block b))
    (hfalls : b.template.fallsThrough = true) :
    (∃ item ∈ (e.cache t).pcMappings,
      item.tcOffset.toNat = offset + (asm.block b.template).size ∧
        item.guestPc = e.pc t + 4) ∨
    JumperAt jumper (e.cache t) (offset + (asm.block b.template).size) := by
  obtain ⟨made, item, hitem, tr, hkeeps, rfl, hpc, hmade, htr, -⟩ := h.current hcontrol hread
  unfold Assembly.translation at htr
  split at htr
  next =>
    cases htr
    rw [← hpc] at hmade ⊢
    have hend : made.blockEnd item = item.tcOffset.toNat + (asm.block b.template).size := by
      rw [GuestCode.blockEnd, GuestCode.size_of_some hmade]
    rw [← hend]
    rcases hkeeps.layout.followed item hitem ⟨_, hmade, hfalls⟩ with
      ⟨next, hnext, hpc', hstart⟩ | ⟨hjumper, -⟩ | ⟨hopen, -⟩
    · exact Or.inl ⟨next, hnext, hstart, hpc'⟩
    · exact Or.inr hjumper
    · cases hopen
  next => cases htr

section After

variable {x : X86.State (Machine Sandbox)} {c : Control} {u : TaskId}

theorem Engine.after_cache_of_ne (hu : u ≠ t) :
    (e.after asm t offset b x c).cache u = e.cache u := by
  simp only [Engine.after]
  split
  next => exact Function.update_of_ne hu ..
  next => rfl

theorem Engine.after_seen_of_ne (hu : u ≠ t) : (e.after asm t offset b x c).seen u = e.seen u := by
  simp only [Engine.after]
  split
  next => exact Function.update_of_ne hu ..
  next => rfl

theorem Engine.after_control :
    (e.after asm t offset b x c).control t = Engine.behind asm offset b c :=
  Function.update_self ..

theorem Engine.after_control_of_ne (hu : u ≠ t) :
    (e.after asm t offset b x c).control u = e.control u :=
  Function.update_of_ne hu ..

theorem Engine.after_pc : (e.after asm t offset b x c).pc t = x.mem.hart.pc := by
  simp [Engine.after, Engine.pc, Sandbox.setHart, Sandbox.withForest, Forest.setVm]

theorem Engine.behind_eq_some {offset' : Nat} (h : Engine.behind asm offset b c = some offset') :
    b.template.fallsThrough = true ∧ c ≠ .left ∧ Engine.flushed b c = false ∧
      offset' = offset + (asm.block b.template).size := by
  unfold Engine.behind at h
  split at h
  next hstays =>
    simp only [Bool.and_eq_true, bne_iff_ne] at hstays
    obtain ⟨hfalls, hleft⟩ := hstays
    have htemplate : b.template ≠ .fenceI := by
      intro heq
      rw [heq] at hfalls
      cases hfalls
    exact ⟨hfalls, hleft, by simp [Engine.flushed, hleft, htemplate], (Option.some.inj h).symm⟩
  next => cases h

/-- A block keeps the caches, or its hart flushes its own. -/
theorem Engine.Sound.kept_after (h : e.Sound asm base window) (u : TaskId) :
    ∃ made : GuestCode jumper, made.Keeps (window u)
      (asm.MadeFrom ((e.after asm t offset b x c).seen u)) ((e.after asm t offset b x c).cache u)
      none := by
  by_cases hu : u = t
  case neg =>
    rw [Engine.after_cache_of_ne hu, Engine.after_seen_of_ne hu]
    exact h.kept u
  subst hu
  simp only [Engine.after]
  split
  next =>
    simp only [Function.update_self]
    exact ⟨fun _ => none, .flush ..⟩
  next => exact h.kept u

end After

/-- A task runs a block. -/
theorem Engine.Sound.block (h : e.Sound asm base window) (hcontrol : e.control t = some offset)
    (hread : cpu.read (e.cache t).code offset = some (.block b))
    (hregular : e.Regular cpu window (.run t host))
    (hblock : e.block asm base t host offset b = .ok e') :
    e'.Sound asm base window ∧ ∃ w, e.sandbox.words t (e.pc t) = some w ∧
      (e.instructionRun base t host w).fetchNext e.sandbox = .ok e'.sandbox := by
  have hcurrent : e.current cpu t ≠ some .jumper := by
    rw [Engine.current, hcontrol, Option.bind_some, hread]
    simp
  obtain ⟨w, i, hw, hdecode, hseen, hexecve⟩ := hregular hcurrent
  obtain ⟨htask, hentered, -⟩ := h.inside t offset hcontrol
  obtain ⟨x, c, hexec, rfl⟩ := Engine.block_ok hentered w hblock
  let run := e.instructionRun base t host w
  replace hdecode : decode run.instruction = some i := hdecode
  have haddress : run.address = (e.sandbox.forest.vm run.task).hart.pc := rfl
  have hb : translate run.address run.instruction = .ok b := h.translated hcontrol hread hseen
  have hnext : run.next e.sandbox = .ok (x.mem.world.setHart t x.mem.hart) :=
    X86.bind_eq_ok.mpr ⟨b, by rw [hb]; rfl, X86.bind_eq_ok.mpr ⟨(x, c), hexec, rfl⟩⟩
  obtain ⟨htasks, hharts⟩ := legal_otherHarts h.zero haddress hdecode hb hexec
  refine ⟨⟨InstructionRun.next_zeroHarts h.zero hnext, h.kept_after, ?_⟩, w, hw, ?_⟩
  · intro u offset' hcontrol'
    by_cases hu : u = t
    case neg =>
      -- The other tasks stay where they are.
      rw [Engine.after_control_of_ne hu] at hcontrol'
      have hinside := h.inside u offset' hcontrol'
      have hhart := hharts u hinside.task hu fun hwritten =>
        hu (Except.ok.inj (hwritten.2.2.symm.trans (hexecve hwritten.1 hwritten.2.1)))
      exact hinside.of_eq htasks (congrArg Hart.pc hhart) (Engine.after_cache_of_ne hu)
        (Function.update_of_ne hu ..)
    subst hu
    rw [Engine.after_control] at hcontrol'
    obtain ⟨hfalls, hleft, hflushed, rfl⟩ := Engine.behind_eq_some hcontrol'
    have hecall : i ≠ .ecall := by
      rintro rfl
      rw [translate_of_decode hdecode] at hb
      cases hb
      cases hfalls
    obtain ⟨-, hpc⟩ := (legal_outcome h.zero haddress hdecode hecall hb hexec).proceeds hfalls hleft
    have hend := (InstructionRun.entry_describes (e.instructionRun base u host w) h.zero).exec
      (sandboxCallbacks_keepsZero u host) (zeroCheck_code b.template) hexec
    refine ⟨Nat.lt_of_lt_of_le htask htasks, ?_, ?_⟩
    · rw [show (e.after asm u offset b x c).regs u = x.regs from Function.update_self ..]
      exact hend.entered
    · rw [Engine.after_pc, hpc, show (e.after asm u offset b x c).cache u = e.cache u from
        congrFun (if_neg (by simp [hflushed])) u]
      exact h.behind hcontrol hread hfalls
  · rw [Engine.fetchNext_eq hw]
    exact hnext

end Sound

/-! ## Whole runs -/

section Runs

variable {cpu base} {window : TaskId → Word} {e e' : Engine} {t : TaskId} {host : HostSide}

/-- What a step inside a cache is. -/
theorem engineRuns_run (h : e.Sound asm base window)
    (hregular : e.Regular cpu window (.run t host))
    (hstep : (engineRuns cpu base).step e (.run t host) e') :
    e'.Sound asm base window ∧
      (e.current cpu t = some .jumper ∧ e'.sandbox = e.sandbox ∨
        ∃ b w, e.current cpu t = some (.block b) ∧ e.sandbox.words t (e.pc t) = some w ∧
          (e.instructionRun base t host w).fetchNext e.sandbox = .ok e'.sandbox) := by
  obtain ⟨-, -, offset, hcontrol, ⟨hread, rfl⟩ | ⟨b, hread, hblock⟩⟩ := hstep
  · refine ⟨h.leave t, Or.inl ⟨?_, rfl⟩⟩
    rw [Engine.current, hcontrol]
    exact hread
  · obtain ⟨hsound, w, hw, hnext⟩ := h.block hcontrol hread hregular hblock
    refine ⟨hsound, Or.inr ⟨b, w, ?_, hw, hnext⟩⟩
    rw [Engine.current, hcontrol]
    exact hread

theorem Engine.observe_jumper (h : e.current cpu t = some .jumper) :
    e.observe cpu base (.run t host) = none := by
  simp only [Engine.observe, h]

theorem Engine.observe_block {b : TranslatedBlock} {w : Word}
    (h : e.current cpu t = some (.block b)) (hw : e.sandbox.words t (e.pc t) = some w) :
    e.observe cpu base (.run t host) = some (e.instructionRun base t host w) := by
  simp only [Engine.observe, h, hw, Option.getD_some, Engine.instructionRun]

variable (cpu base window)

/-- A step of the engine is one of the plain machine, or leaves the sandbox alone. -/
theorem engineRuns_cases {e e' : Engine} {step : EngineStep} (h : e.Sound asm base window)
    (hstep : ((engineRuns cpu base).restrict (Engine.Regular cpu window)).step e step e') :
    e'.Sound asm base window ∧
      (e.observe cpu base step = none ∧ e'.sandbox = e.sandbox ∨
        ∃ run, e.observe cpu base step = some run ∧ fetchRuns.step e.sandbox run e'.sandbox) := by
  obtain ⟨hregular, hstep⟩ := hstep
  cases step with
  | resume t scratch =>
    exact ⟨h.resume hstep.1 hregular hstep.2.2.2,
      Or.inl ⟨rfl, Engine.resume_sandbox hstep.2.2.2⟩⟩
  | run t host =>
    obtain ⟨hsound, ⟨hjumper, hsame⟩ | ⟨b, w, hblock, hw, hnext⟩⟩ :=
      engineRuns_run h hregular hstep
    · exact ⟨hsound, Or.inl ⟨Engine.observe_jumper hjumper, hsame⟩⟩
    · exact ⟨hsound, Or.inr ⟨_, Engine.observe_block hblock hw, hstep.1, hstep.2.1, hnext⟩⟩

/-- The engine is seen as the plain machine. -/
theorem engine_simulation :
    ((engineRuns cpu base).restrict (Engine.Regular cpu window)).Simulation fetchRuns
      Engine.sandbox (Engine.observe cpu base) (Engine.Sound asm base window) :=
  .of_cases fun _ _ _ => engineRuns_cases cpu base window

variable {cpu base window}

theorem engineRuns_init (h : (engineRuns cpu base).init e) : e.Sound asm base window := by
  obtain ⟨hsandbox, hcache, hcontrol, -⟩ := h
  refine ⟨reachable_zeroHarts (.init hsandbox), fun t => ?_, fun t offset hinside => ?_⟩
  · rw [hcache t]
    exact ⟨fun _ => none, .flush _ _ _ .initial none⟩
  · rw [hcontrol t] at hinside
    cases hinside

/-- Control inside a cache is at a block or at a jumper. -/
theorem Engine.Sound.current_ne_none (h : e.Sound asm base window) {offset : Nat}
    (hcontrol : e.control t = some offset) : e.current cpu t ≠ none := by
  rw [Engine.current, hcontrol, Option.bind_some]
  rcases (h.inside t offset hcontrol).atPc with ⟨item, hitem, rfl, -⟩ | hjumper
  · obtain ⟨made, hkeeps⟩ := h.kept t
    obtain ⟨tr, -, ⟨w, -, hof⟩, hblock⟩ := hkeeps.content item hitem
    obtain ⟨b, -, htr⟩ := asm.ofWord_eq_some hof
    rw [cpu.block htr hblock]
    exact Option.some_ne_none _
  · rw [cpu.jumper hjumper]
    exact Option.some_ne_none _

/-- The engine runs guests as the machine does that fetches and translates every
instruction anew.  In a regular run, where units lie in their windows and do not clash,
guests fence the code they change, and no task executes a program in memory that it shares
with its parent, the blocks that run in the caches are a run of that machine, with the same
effects on memory, harts, files and tasks, whatever the order of the tasks.  Control never
comes to bytes that are neither a block nor a jumper. -/
theorem engine_transparent {steps : List (System.Step Engine EngineStep)}
    (hinit : (engineRuns cpu base).init e)
    (hrun : ((engineRuns cpu base).restrict (Engine.Regular cpu window)).Run e steps e') :
    fetchRuns.Run e.sandbox
        (steps.filterMap (System.Step.observed Engine.sandbox (Engine.observe cpu base)))
        e'.sandbox ∧
      ∀ t offset, e'.control t = some offset → e'.current cpu t ≠ none := by
  have hsound : e.Sound asm base window := engineRuns_init hinit
  have hsim := engine_simulation cpu base window
  exact ⟨hsim.run hsound hrun, fun t offset hcontrol =>
    (hsim.invariant hsound hrun).current_ne_none hcontrol⟩

end Runs

/-! ## An assembler -/

/-- All templates. -/
def Template.all : List Template :=
  [.lui, .auipc, .jal, .jalr, .beq, .bne, .blt, .bge, .bltu, .bgeu, .lb, .lh, .lw, .lbu, .lhu,
    .sb, .sh, .sw, .addi, .stli, .stliu, .xori, .ori, .andi, .slli, .srli, .srai, .add, .sub, .sll,
    .slt, .sltu, .xor, .srl, .sra, .or, .and, .mul, .mulh, .mulhsu, .mulhu, .div, .divu, .rem,
    .remu, .fence, .fenceI, .ecall, .amo]

/-- Templates of 20 bytes that begin with their numbers. -/
def numberedAssembly : Assembly vmmJumper where
  block template := ⟨20, fun _ => BitVec.ofNat 8 (Template.all.idxOf template), by decide⟩
  fits _ := by
    show 20 + vmmJumper.size ≤ translationCacheSize
    decide
  params_fit template := by cases template <;> decide

/-- The word of four bytes. -/
def codeWord (code : Nat → Byte) (p : Nat) : Word :=
  BitVec.ofNat 32 (ofLeBytes [code p, code (p + 1), code (p + 2), code (p + 3)])

/-- The bytes of a numbered block, read back. -/
def readNumbered (code : Nat → Byte) (offset : Nat) : Option HostUnit :=
  if code offset = 0x48 then some .jumper
  else Template.all[(code offset).toNat]?.map fun template => .block ⟨template,
    (List.range template.nrParams).map fun k =>
      codeWord code (offset + (20 - 4 * template.nrParams) + 4 * k)⟩

theorem codeWord_paramByte {code : Nat → Byte} {p k : Nat} {params : List Word}
    (h : ∀ i, i < 4 * params.length → code (p + i) = paramByte params i) (hk : k < params.length) :
    codeWord code (p + 4 * k) = params[k] := by
  have hbyte : ∀ j, j < 4 → (code (p + 4 * k + j)).toNat = params[k].toNat / 2 ^ (8 * j) % 256 := by
    intro j hj
    have hdiv : (4 * k + j) / 4 = k := by omega
    have hmod : (4 * k + j) % 4 = j := by omega
    rw [Nat.add_assoc, h (4 * k + j) (by omega), paramByte, hdiv, hmod,
      List.getD_eq_getElem _ _ hk, BitVec.truncate_eq_setWidth, BitVec.toNat_setWidth,
      BitVec.toNat_ushiftRight, Nat.shiftRight_eq_div_pow]
  have h0 := hbyte 0 (by omega)
  rw [Nat.add_zero] at h0
  apply BitVec.eq_of_toNat_eq
  simp only [codeWord, ofLeBytes, BitVec.toNat_ofNat, h0, hbyte 1 (by omega), hbyte 2 (by omega),
    hbyte 3 (by omega)]
  have hword := params[k].isLt
  omega

theorem readNumbered_block {code : Nat → Byte} {offset : Nat} {b : TranslatedBlock}
    {t : Translation vmmJumper} (ht : numberedAssembly.translation b = some t)
    (hblock : BlockAt code offset t) : readNumbered code offset = some (.block b) := by
  unfold Assembly.translation at ht
  split at ht
  case isFalse => cases ht
  next hlength =>
    cases ht
    have hfit : 4 * b.params.length ≤ 16 := by
      rw [hlength]
      cases b.template <;> decide
    have hfirst : code offset = BitVec.ofNat 8 (Template.all.idxOf b.template) := by
      have h := hblock 0 (by show 0 < 20; decide)
      rwa [Nat.add_zero, Translation.byte, memcpy_of_lt (by simp [numberedAssembly]; omega)] at h
    have htag : code offset ≠ 0x48 ∧
        Template.all[(code offset).toNat]? = some b.template := by
      rw [hfirst]
      cases b.template <;> decide
    have hparams : ∀ i, i < 4 * b.params.length →
        code (offset + (20 - 4 * b.params.length) + i) = paramByte b.params i := by
      intro i hi
      have h := hblock (20 - 4 * b.params.length + i) (by simp [numberedAssembly]; omega)
      rw [← Nat.add_assoc] at h
      rw [h, Translation.byte]
      exact memcpy_add hi
    rw [readNumbered, if_neg htag.1, htag.2, Option.map_some, ← hlength]
    congr 2
    obtain ⟨template, params⟩ := b
    congr 1
    refine List.ext_getElem (by simp) fun k hk hk' => ?_
    rw [List.getElem_map, List.getElem_range]
    exact codeWord_paramByte hparams hk'

/-- A processor for it. -/
def numberedProcessor : Processor numberedAssembly where
  read := readNumbered
  block := readNumbered_block
  jumper h := if_pos (h 0 (by decide))

/-- The engine on a sandbox, with empty caches. -/
def Engine.start (s : Sandbox) : Engine :=
  ⟨s, fun _ => .initial, fun _ => none, fun _ _ => 0, fun _ _ => []⟩

/-- `addi x1, x0, 7` and a jump back to it, at the entry of a program. -/
def loopElf : List Byte :=
  segmentElf ⟨programTypeLoad, 84, 0, 8, 0x1000, 5⟩ [0x93, 0, 0x70, 0, 0x6f, 0xf0, 0xdf, 0xff]

/-- The loop is translated once, and both of its blocks run from the cache. -/
theorem engine_transparent_loop :
    ∃ s s' runs, fetchRuns.Run s runs s' ∧ runs.length = 2 ∧
      (s'.forest.vm 0).hart.registers 1 = 7 ∧ (s'.forest.vm 0).hart.pc = 0 := by
  have hrun : (do
      let forest ← (applicationSandboxInit { bareBoot slashX with app := some loopElf }
        (.lowest 8)).toOption
      let e₀ := Engine.start ⟨forest, .initial, []⟩
      let e₁ ← (e₀.resume numberedAssembly (fun _ => 0) 0 fun _ => 0).toOption
      let e₂ ← (e₁.block numberedAssembly (fun _ => 0) 0 quietHost 0 ⟨.addi, [7, 0, 1]⟩).toOption
      let e₃ ← (e₂.block numberedAssembly (fun _ => 0) 0 quietHost 20 ⟨.jal, [0, 8, 0]⟩).toOption
      return decide (forest.nrTasks = 1 ∧ e₀.pc 0 = 0 ∧
        e₀.sandbox.words 0 0 = some 0x00700093 ∧ e₀.sandbox.words 0 4 = some 0xffdff06f ∧
        e₁.control 0 = some 0 ∧ e₁.seen 0 0 = [0x00700093] ∧
        readNumbered (e₁.cache 0).code 0 = some (.block ⟨.addi, [7, 0, 1]⟩) ∧
        e₂.sandbox.forest.nrTasks = 1 ∧ e₂.sandbox.exited = [] ∧ e₂.pc 0 = 4 ∧
        e₂.control 0 = some 20 ∧ e₂.seen 0 4 = [0xffdff06f] ∧
        e₂.sandbox.words 0 4 = some 0xffdff06f ∧
        readNumbered (e₂.cache 0).code 20 = some (.block ⟨.jal, [0, 8, 0]⟩) ∧
        e₃.pc 0 = 0 ∧ (e₃.sandbox.forest.vm 0).hart.registers 1 = 7)) = some true := by
    decide +kernel
  simp only [Option.bind_eq_bind, Option.bind_eq_some_iff, Option.pure_def, Option.some.injEq,
    decide_eq_true_eq, Result.toOption_eq_some] at hrun
  obtain ⟨forest, hboot, e₁, hresume, e₂, haddi, e₃, hjal, htasks, hpc₀, hword₀, hword₀', hcontrol₁,
    hseen₁, hread₁, htasks₂, hexited₂, hpc₂, hcontrol₂, hseen₂, hword₂, hread₂, hpc₃,
    hregister⟩ := hrun
  let e₀ := Engine.start ⟨forest, .initial, []⟩
  have hsandbox₁ : e₁.sandbox = e₀.sandbox := Engine.resume_sandbox hresume
  have hpc₁ : e₁.pc 0 = 0 := by
    rw [Engine.pc, hsandbox₁]
    exact hpc₀
  have hinit : (engineRuns numberedProcessor fun _ => 0).init e₀ :=
    ⟨⟨_, _, forest, hboot, rfl⟩, fun _ => rfl, fun _ => rfl, fun _ _ => rfl⟩
  -- The unit has two instructions.
  have hunit : ∀ p, (numberedAssembly.guestCode (e₀.sandbox.words 0)).InUnit (e₀.pc 0) p →
      InWindow 0 p := by
    intro p hp
    have hjump : (numberedAssembly.ofWord 4 0xffdff06f).map (·.fallsThrough) = some false := rfl
    have hunit : p = 0 ∨ p = 4 := by
      induction hp with
      | start => exact Or.inl hpc₀
      | next _ ht hfalls ih =>
        rcases ih with rfl | rfl
        · exact Or.inr rfl
        · rw [numberedAssembly.guestCode_eq, hword₀', Option.bind_some] at ht
          rw [ht, Option.map_some, hfalls] at hjump
          cases hjump
    rcases hunit with rfl | rfl
    · decide
    · decide
  let R := (engineRuns numberedProcessor fun _ => 0).restrict
    (Engine.Regular numberedProcessor fun _ => 0)
  have htask₀ : 0 < e₀.sandbox.forest.nrTasks := by
    rw [show e₀.sandbox.forest.nrTasks = 1 from htasks]
    decide
  have hstep₁ : R.step e₀ (.resume 0 fun _ => 0) e₁ :=
    ⟨⟨hunit, not_unitClash_of_empty rfl rfl⟩, htask₀, List.not_mem_nil, rfl, hresume⟩
  have hstep₂ : R.step e₁ (.run 0 quietHost) e₂ := by
    refine ⟨fun _ => ⟨0x00700093, _, ?_, rfl, ?_, ?_⟩, ?_, ?_, 0, hcontrol₁,
      Or.inr ⟨_, hread₁, haddi⟩⟩
    · rw [hpc₁, hsandbox₁]
      exact hword₀
    · rw [hpc₁, hseen₁]
      simp
    · intro hecall
      cases hecall
    · rw [hsandbox₁]
      exact htask₀
    · rw [hsandbox₁]
      exact List.not_mem_nil
  have hstep₃ : R.step e₂ (.run 0 quietHost) e₃ := by
    refine ⟨fun _ => ⟨0xffdff06f, _, ?_, rfl, ?_, ?_⟩, ?_, ?_, 20, hcontrol₂,
      Or.inr ⟨_, hread₂, hjal⟩⟩
    · rw [hpc₂]
      exact hword₂
    · rw [hpc₂, hseen₂]
      simp
    · intro hecall
      cases hecall
    · rw [htasks₂]
      decide
    · rw [hexited₂]
      exact List.not_mem_nil
  obtain ⟨hfetch, -⟩ :=
    engine_transparent hinit (.cons hstep₁ (.cons hstep₂ (.cons hstep₃ (.nil e₃))))
  refine ⟨_, _, _, hfetch, ?_, hregister, hpc₃⟩
  have hcurrent₁ : e₁.current numberedProcessor 0 = some (.block ⟨.addi, [7, 0, 1]⟩) := by
    rw [Engine.current, hcontrol₁]
    exact hread₁
  have hcurrent₂ : e₂.current numberedProcessor 0 = some (.block ⟨.jal, [0, 8, 0]⟩) := by
    rw [Engine.current, hcontrol₂]
    exact hread₂
  have hobserve₁ : e₁.observe numberedProcessor (fun _ => 0) (.run 0 quietHost) = some _ :=
    Engine.observe_block hcurrent₁ (by rw [hpc₁, hsandbox₁]; exact hword₀)
  have hobserve₂ : e₂.observe numberedProcessor (fun _ => 0) (.run 0 quietHost) = some _ :=
    Engine.observe_block hcurrent₂ (by rw [hpc₂]; exact hword₂)
  simp only [List.filterMap_cons, System.Step.observed, hobserve₁, hobserve₂, Option.map_some]
  rfl

section Runs

variable {cpu base} {window : TaskId → Word} {e e' : Engine} {t : TaskId} {host : HostSide}

/-! ## The instruction set -/

/-- The machine of the instruction set. -/
def isaRuns : System FlatState InstructionRun where
  init _ := True
  step s run s' := s.interpret run.task run.trap = some s'

/-- The task that runs uses the memory of `owner`, and its instruction is no system call and
is served. -/
def Engine.Serves (cpu : Processor asm) (owner : TaskId) (e : Engine) : EngineStep → Prop
  | .resume .. => True
  | .run t _ => e.current cpu t ≠ some .jumper →
      getLinkedVm e.sandbox.forest t .vm = .ok owner ∧
        ∃ i, decode ((e.sandbox.flat owner).fetch t) = some i ∧ i ≠ .ecall ∧
          Served (e.sandbox.forest.vm owner).memory.regions (e.sandbox.flat owner) t i

/-- What is observed is a block of the task. -/
theorem Engine.observe_eq_some {step : EngineStep} {run : InstructionRun}
    (h : e.observe cpu base step = some run) :
    ∃ host, step = .run run.task host ∧ e.current cpu run.task ≠ some .jumper := by
  cases step with
  | resume t scratch => cases h
  | run t host =>
    simp only [Engine.observe] at h
    split at h
    next b hb =>
      cases h
      exact ⟨host, rfl, by rw [hb]; simp⟩
    next => cases h

/-- An instruction with a template is a step of the machine, unless it is a system call. -/
theorem isaStep_of_block {i : Instruction} {address trap : Word} {s : FlatState}
    (hb : ∃ b, i.block address = some b) (hecall : i ≠ .ecall) :
    ∃ f, i.isaStep t trap s = some f := by
  cases i with
  | ecall => exact absurd rfl hecall
  | ebreak =>
    obtain ⟨b, hb⟩ := hb
    cases hb
  | lr rd rs1 | amo op rd rs1 rs2 =>
    simp only [Instruction.isaStep, Instruction.flatStep]
    split
    next => exact ⟨_, rfl⟩
    next => exact ⟨_, rfl⟩
  | sc rd rs1 rs2 =>
    simp only [Instruction.isaStep, Instruction.flatStep]
    split
    next => exact ⟨_, rfl⟩
    next =>
      split
      next => exact ⟨_, rfl⟩
      next => exact ⟨_, rfl⟩
  | lui | auipc | jal | jalr | branch | load | store | opImm | shiftImm | opReg | shift | mul
  | fence | fenceI => exact ⟨_, rfl⟩

/-- A served block is a step of the machine, and the memory stays backed. -/
theorem serves_step {s s' : Sandbox} {owner : TaskId} {run : InstructionRun} {i : Instruction}
    (hsorted : (s.forest.vm owner).memory.regions.SortedDisjoint)
    (hbacked : SeparatelyBacked s.forest.heap (s.forest.vm owner).memory.regions)
    (hzero : s.ZeroHarts) (hlink : getLinkedVm s.forest run.task .vm = .ok owner)
    (hdecode : decode ((s.flat owner).fetch run.task) = some i) (hecall : i ≠ .ecall)
    (hserved : Served (s.forest.vm owner).memory.regions (s.flat owner) run.task i)
    (hnext : run.fetchNext s = .ok s') :
    (s.flat owner).interpret run.task run.trap = some (s'.flat owner) ∧
      (s'.forest.vm owner).memory.regions.SortedDisjoint ∧
      SeparatelyBacked s'.forest.heap (s'.forest.vm owner).memory.regions := by
  obtain ⟨f, hf⟩ : ∃ f, i.isaStep run.task run.trap (s.flat owner) = some f :=
    isaStep_of_block hserved.template hecall
  have hinterpret : (s.flat owner).interpret run.task run.trap = some f := by
    rw [FlatState.interpret, hdecode]
    exact hf
  obtain ⟨hart, heap, reservations, hnext', hbacked', -, hflat, -⟩ :=
    fetchNext_simulates hlink ⟨hsorted.inOrder, hbacked, hzero⟩ hdecode hserved hinterpret
  obtain rfl := Except.ok.inj (hnext.symm.trans hnext')
  have hmemory : ((s.accessed run.task hart heap reservations).forest.vm owner).memory =
      (s.forest.vm owner).memory := accessed_vm Vm.memory (fun _ _ => rfl) owner
  rw [hmemory, hflat]
  exact ⟨hinterpret, hsorted, hbacked'⟩

/-- The engine runs guests as the instruction set says.  Tasks that share a memory, with
every region in a buffer of its own, are translated, resumed and interrupted in any order,
from caches that are empty or were filled by regular runs.  In a regular run in which every
block is that of a served instruction, what the blocks leave of the bytes, the registers, the
pcs and the reservations is what the machine of the instruction set leaves. -/
theorem engine_interprets {owner : TaskId} {steps : List (System.Step Engine EngineStep)}
    (hsound : e.Sound asm base window)
    (hsorted : (e.sandbox.forest.vm owner).memory.regions.SortedDisjoint)
    (hbacked : SeparatelyBacked e.sandbox.forest.heap (e.sandbox.forest.vm owner).memory.regions)
    (hrun : (((engineRuns cpu base).restrict (Engine.Regular cpu window)).restrict
      (Engine.Serves cpu owner)).Run e steps e') :
    isaRuns.Run (e.sandbox.flat owner)
      (steps.filterMap (System.Step.observed (fun e => e.sandbox.flat owner)
        (Engine.observe cpu base)))
      (e'.sandbox.flat owner) := by
  let Inv : Engine → Prop := fun e => e.Sound asm base window ∧
    (e.sandbox.forest.vm owner).memory.regions.SortedDisjoint ∧
    SeparatelyBacked e.sandbox.forest.heap (e.sandbox.forest.vm owner).memory.regions
  have hserved : (((engineRuns cpu base).restrict (Engine.Regular cpu window)).restrict
      (Engine.Serves cpu owner)).Simulation isaRuns (fun e => e.sandbox.flat owner)
        (Engine.observe cpu base) Inv := by
    refine .of_cases fun e step e' h hstep => ?_
    obtain ⟨hsound, hsorted, hbacked⟩ := h
    obtain ⟨hserves, hstep⟩ := hstep
    obtain ⟨hsound', ⟨hnone, hsame⟩ | ⟨run, hsome, -, -, hnext⟩⟩ :=
      engineRuns_cases cpu base window hsound hstep
    · refine ⟨⟨hsound', ?_⟩, Or.inl ⟨hnone, ?_⟩⟩
      · rw [hsame]
        exact ⟨hsorted, hbacked⟩
      · rw [hsame]
    · obtain ⟨host, rfl, hcurrent⟩ := Engine.observe_eq_some hsome
      obtain ⟨hlink, i, hdecode, hecall, hserved⟩ := hserves hcurrent
      obtain ⟨hinterpret, hsorted', hbacked'⟩ :=
        serves_step hsorted hbacked hsound.zero hlink hdecode hecall hserved hnext
      exact ⟨⟨hsound', hsorted', hbacked'⟩, Or.inr ⟨run, hsome, hinterpret⟩⟩
  exact hserved.run ⟨hsound, hsorted, hbacked⟩ hrun

end Runs

/-- Empty caches are sound. -/
theorem Engine.start_sound {s : Sandbox} {window : TaskId → Word} (h : s.ZeroHarts) :
    (Engine.start s).Sound asm base window := by
  refine ⟨h, fun _ => ⟨fun _ => none, .flush _ _ _ .initial none⟩, ?_⟩
  intro t offset hcontrol
  cases hcontrol

/-- The words of `squareSandbox` are a unit of four. -/
theorem squareSandbox_unit {p : Word}
    (hp : (numberedAssembly.guestCode (squareSandbox.words 0)).InUnit 0x1000 p) :
    InWindow 0 p := by
  have hjump : ((squareSandbox.words 0 0x100c).bind (numberedAssembly.ofWord 0x100c)).map
      (·.fallsThrough) = some false := by decide +kernel
  have hunit : p = 0x1000 ∨ p = 0x1004 ∨ p = 0x1008 ∨ p = 0x100c := by
    induction hp with
    | start => exact Or.inl rfl
    | next _ ht hfalls ih =>
      rcases ih with rfl | rfl | rfl | rfl
      · exact Or.inr (Or.inl rfl)
      · exact Or.inr (Or.inr (Or.inl rfl))
      · exact Or.inr (Or.inr (Or.inr rfl))
      · rw [← numberedAssembly.guestCode_eq, ht, Option.map_some, hfalls] at hjump
        cases hjump
  rcases hunit with rfl | rfl | rfl | rfl
  · decide
  · decide
  · decide
  · decide

/-- The square is computed by blocks in the cache. -/
theorem engine_interprets_square :
    ∃ f runs, isaRuns.Run (squareSandbox.flat 0) runs f ∧ runs.length = 2 ∧
      (f.harts 0).registers 3 = 9 ∧ (f.harts 0).pc = 0x1008 := by
  have hrun : (do
      let e₁ ← ((Engine.start squareSandbox).resume numberedAssembly (fun _ => 0) 0
        fun _ => 0).toOption
      let e₂ ← (e₁.block numberedAssembly (fun _ => 0) 0 quietHost 0
        ⟨.addi, [0xfffffffd, 0, 1]⟩).toOption
      let e₃ ← (e₂.block numberedAssembly (fun _ => 0) 0 quietHost 20 ⟨.mul, [1, 1, 3]⟩).toOption
      return decide (e₁.control 0 = some 0 ∧ e₁.seen 0 0x1000 = [0xffd00093] ∧
        readNumbered (e₁.cache 0).code 0 = some (.block ⟨.addi, [0xfffffffd, 0, 1]⟩) ∧
        e₂.sandbox.forest.nrTasks = 1 ∧ e₂.sandbox.exited = [] ∧
        (e₂.sandbox.forest.vm 0).memory.regions.pmrOps = [⟨0x1000, 0x1020, 6, some 0⟩] ∧
        getLinkedVm e₂.sandbox.forest 0 .vm = .ok 0 ∧ e₂.pc 0 = 0x1004 ∧
        e₂.control 0 = some 20 ∧ e₂.seen 0 0x1004 = [0x021081b3] ∧
        e₂.sandbox.words 0 0x1004 = some 0x021081b3 ∧
        (e₂.sandbox.flat 0).fetch 0 = 0x021081b3 ∧
        readNumbered (e₂.cache 0).code 20 = some (.block ⟨.mul, [1, 1, 3]⟩) ∧
        e₃.pc 0 = 0x1008 ∧ (e₃.sandbox.forest.vm 0).hart.registers 3 = 9)) = some true := by
    decide +kernel
  simp only [Option.bind_eq_bind, Option.bind_eq_some_iff, Option.pure_def, Option.some.injEq,
    decide_eq_true_eq, Result.toOption_eq_some] at hrun
  obtain ⟨e₁, hresume, e₂, haddi, e₃, hmul, hcontrol₁, hseen₁, hread₁, htasks₂, hexited₂,
    hregions₂, hlink₂, hpc₂, hcontrol₂, hseen₂, hword₂, hfetch₂, hread₂, hpc₃, hregister⟩ := hrun
  let e₀ := Engine.start squareSandbox
  have hsandbox₁ : e₁.sandbox = squareSandbox := Engine.resume_sandbox hresume
  let R := ((engineRuns numberedProcessor fun _ => 0).restrict
    (Engine.Regular numberedProcessor fun _ => 0)).restrict (Engine.Serves numberedProcessor 0)
  have hstep₁ : R.step e₀ (.resume 0 fun _ => 0) e₁ :=
    ⟨trivial, ⟨fun _ => squareSandbox_unit, not_unitClash_of_empty rfl rfl⟩, by decide,
      List.not_mem_nil, rfl, hresume⟩
  have hpc₁ : e₁.pc 0 = 0x1000 := by
    rw [Engine.pc, hsandbox₁]
    rfl
  have hword₁ : e₁.sandbox.words 0 (e₁.pc 0) = some 0xffd00093 := by
    rw [hpc₁, hsandbox₁]
    decide +kernel
  have hstep₂ : R.step e₁ (.run 0 quietHost) e₂ := by
    refine ⟨fun _ => ?_, fun _ => ⟨0xffd00093, _, hword₁, rfl, ?_, ?_⟩, ?_, ?_, 0, hcontrol₁,
      Or.inr ⟨_, hread₁, haddi⟩⟩
    · rw [hsandbox₁]
      refine ⟨rfl, .opImm .addi 1 0 0xfffffffd, by decide +kernel, by decide,
        squareSandbox_holds (by decide), ?_, ⟨_, rfl⟩, ?_⟩
      · intro _ _ h
        cases h
      · intro _ _ _ _ h
        cases h
    · rw [hpc₁, hseen₁]
      simp
    · intro hecall
      cases hecall
    · rw [hsandbox₁]
      decide
    · rw [hsandbox₁]
      exact List.not_mem_nil
  have hstep₃ : R.step e₂ (.run 0 quietHost) e₃ := by
    refine ⟨fun _ => ⟨hlink₂, .mul .mul 3 1 1, ?_, by decide, ?_, ?_, ⟨_, rfl⟩, ?_⟩,
      fun _ => ⟨0x021081b3, .mul .mul 3 1 1, ?_, rfl, ?_, ?_⟩, ?_, ?_, 20, hcontrol₂,
      Or.inr ⟨_, hread₂, hmul⟩⟩
    · rw [hfetch₂]
      rfl
    · refine ⟨_, by rw [hregions₂]; exact List.mem_singleton_self _, ?_⟩
      rw [show ((e₂.sandbox.flat 0).harts 0).pc = 0x1004 from hpc₂]
      decide
    · intro _ _ h
      cases h
    · intro op rd rs1 rs2 h
      cases h
      exact id
    · rw [hpc₂]
      exact hword₂
    · rw [hpc₂, hseen₂]
      simp
    · intro hecall
      cases hecall
    · rw [htasks₂]
      decide
    · rw [hexited₂]
      exact List.not_mem_nil
  have hisa := engine_interprets (Engine.start_sound _ fun _ => rfl) squareSandbox_sorted
    squareSandbox_backed (.cons hstep₁ (.cons hstep₂ (.cons hstep₃ (.nil e₃))))
  refine ⟨_, _, hisa, ?_, hregister, hpc₃⟩
  have hcurrent₁ : e₁.current numberedProcessor 0 = some (.block ⟨.addi, [0xfffffffd, 0, 1]⟩) := by
    rw [Engine.current, hcontrol₁]
    exact hread₁
  have hcurrent₂ : e₂.current numberedProcessor 0 = some (.block ⟨.mul, [1, 1, 3]⟩) := by
    rw [Engine.current, hcontrol₂]
    exact hread₂
  have hobserve₁ : e₁.observe numberedProcessor (fun _ => 0) (.run 0 quietHost) = some _ :=
    Engine.observe_block hcurrent₁ hword₁
  have hobserve₂ : e₂.observe numberedProcessor (fun _ => 0) (.run 0 quietHost) = some _ :=
    Engine.observe_block hcurrent₂ (by rw [hpc₂]; exact hword₂)
  simp only [List.filterMap_cons, System.Step.observed, hobserve₁, hobserve₂, Option.map_some]
  rfl

end Hyrule
