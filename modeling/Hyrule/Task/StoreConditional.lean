import Hyrule.Task.GuestMemory

/-!
# What an `sc.w` succeeds on

An `sc.w` should succeed only on a reservation of the task's own latest `lr.w`.  The
array of `translate_amo.c` does not say whose an item is: every hart of the sandbox has
the id 0, an item stays until an `sc.w` at its address takes it or a later `lr.w`
overwrites it, and an address may have several.  So an `sc.w` takes what another task,
an abandoned `lr.w` or a second `lr.w` at the address has left (`sc_takes_duplicate`).

In a run, every `sc.w` keeps to the discipline exactly if none of them finds an item for
its address that is not of the task's latest `lr.w` or `sc.w` (`scDisciplined_iff`).
-/

namespace Hyrule

open Lib Lib.Result Riscv

/-! ## The history of the tasks -/

/-- The sandbox, with the `lr.w` that each task has executed last. -/
structure ReservationHistory where
  sandbox : Sandbox
  /-- The address of the task's `lr.w`, if the task has executed neither `lr.w` nor `sc.w`
  since. -/
  latest : TaskId → Option Word

namespace ReservationHistory

/-- The hart of the task that runs an instruction. -/
def hart (s : ReservationHistory) (run : InstructionRun) : Hart :=
  (s.sandbox.forest.vm run.task).hart

/-- The latest `lr.w` of a task behind an instruction.  An `lr.w` at an address that is not
aligned raises an exception instead. -/
def latestBehind (s : ReservationHistory) (run : InstructionRun) : Option Word :=
  match decode run.instruction with
  | some (.lr _ rs1) =>
      if (s.hart run).registers rs1 &&& 3 = 0 then some ((s.hart run).registers rs1)
      else s.latest run.task
  | some (.sc ..) => none
  | _ => s.latest run.task

end ReservationHistory

/-- The runs of the sandbox, with the history. -/
def reservationRuns : System ReservationHistory InstructionRun where
  init s := sandboxRuns.init s.sandbox ∧ ∀ t, s.latest t = none
  step s run s' := sandboxRuns.step s.sandbox run s'.sandbox ∧
    s'.latest = Function.update s.latest run.task (s.latestBehind run)

/-- What an `sc.w` leaves: the code that its slow path stores in `rd`, and the sandbox. -/
def InstructionRun.ScReturns (run : InstructionRun) (s : Sandbox) (rd rs1 rs2 : RegisterIndex)
    (code : Word) (s' : Sandbox) : Prop :=
  ∃ owner a, getLinkedVm s.forest run.task .vm = .ok owner ∧
    run.amo s owner 0x3 rs1 rs2 rd = .ok a ∧ a.hart.registers rd = code ∧
    s' = s.accessed run.task a.hart.proceed a.heap a.reservations

/-- An `sc.w` returns 0 and stores its operand, and the latest `lr.w` or `sc.w` of its task
is an `lr.w` at its address; or it returns another code, and the memory is unchanged. -/
def ScDisciplined (s : ReservationHistory) (run : InstructionRun) (s' : ReservationHistory) :
    Prop :=
  ∀ rd rs1 rs2, decode run.instruction = some (.sc rd rs1 rs2) →
    ∃ code, run.ScReturns s.sandbox rd rs1 rs2 code s'.sandbox ∧
      (code = 0 ∧ s.latest run.task = some ((s.hart run).registers rs1) ∧
          s.sandbox.write run.task ((s.hart run).registers rs1) 4
            ((s.hart run).registers rs2).toNat =
              .ok (s.sandbox.withForest { s.sandbox.forest with heap := s'.sandbox.forest.heap }) ∨
        code ≠ 0 ∧ s'.sandbox.forest.heap = s.sandbox.forest.heap)

/-- The latest `lr.w` or `sc.w` of a task is an `lr.w` at the address of its `sc.w`, or no
item for the address is left. -/
def NoStaleItem (s : ReservationHistory) (run : InstructionRun) : Prop :=
  ∀ rd rs1 rs2, decode run.instruction = some (.sc rd rs1 rs2) →
    s.latest run.task = some ((s.hart run).registers rs1) ∨
      ∀ item ∈ s.sandbox.reservations.items, item.valid = true →
        item.addr ≠ (s.hart run).registers rs1

/-! ## The items of the array -/

/-- Every item has the id 0, and a valid one has an aligned address. -/
def Reservations.Aligned (r : Reservations) : Prop :=
  ∀ item ∈ r.items, item.hartid = 0 ∧ (item.valid = true → item.addr &&& 3 = 0)

namespace Reservations

variable {r : Reservations} {address : Word} {hart : Hart}

theorem aligned_initial : initial.Aligned := by
  intro item hitem
  obtain rfl := List.eq_of_mem_replicate hitem
  exact ⟨rfl, fun h => nomatch h⟩

theorem Aligned.reserve (h : r.Aligned) (hhart : hart.hartId = 0) (haddress : address &&& 3 = 0) :
    (r.reserve address hart).Aligned := by
  intro item hitem
  rcases List.mem_or_eq_of_mem_set hitem with hitem | rfl
  · exact h item hitem
  · exact ⟨by rw [hhart]; rfl, fun _ => haddress⟩

theorem Aligned.clear (h : r.Aligned) (idx : Nat) : (r.clear idx).Aligned := by
  intro item hitem
  obtain ⟨i, hi⟩ := List.getElem?_of_mem hitem
  simp only [Reservations.clear, List.getElem?_modify] at hi
  obtain ⟨old, hold, rfl⟩ := Option.map_eq_some_iff.mp hi
  obtain ⟨hid, haligned⟩ := h old (List.mem_of_getElem? hold)
  split
  next => exact ⟨hid, fun hvalid => nomatch hvalid⟩
  next => exact ⟨hid, haligned⟩

/-- An item that is found is one for the address. -/
theorem find_eq_none_iff (h : r.Aligned) (hhart : hart.hartId = 0) :
    r.find address hart = none ↔ ∀ item ∈ r.items, item.valid = true → item.addr ≠ address := by
  rw [find_eq_none hhart, Holds, not_exists]
  refine forall_congr' fun item => ?_
  rw [not_and]
  refine imp_congr_right fun hitem => ?_
  simp [(h item hitem).1]

theorem Aligned.of_find (h : r.Aligned) {idx : Nat} (hfind : r.find address hart = some idx) :
    address &&& 3 = 0 := by
  obtain ⟨hlt, hitem, -⟩ := List.findIdx?_eq_some_iff_getElem.mp hfind
  simp only [Bool.and_eq_true, decide_eq_true_eq] at hitem
  obtain ⟨⟨hvalid, rfl⟩, -⟩ := hitem
  exact (h _ (List.getElem_mem hlt)).2 hvalid

end Reservations

/-! ## Every hart has the id 0 -/

/-- What is known of the ids and the array whenever an instruction begins. -/
structure Sandbox.OneId (s : Sandbox) : Prop where
  harts : s.forest.AllHarts fun hart => hart.hartId = 0
  items : s.reservations.Aligned

theorem hartId_keptByCalls : KeptByCalls fun hart => hart.hartId = 0 where
  initial := rfl
  setRegister _ _ h := h
  jump _ h := h
  renumber _ := rfl
  reset h := h

/-- The same of a machine that runs a block. -/
structure OneIdMachine (m : Machine Sandbox) : Prop where
  world : m.world.OneId
  hart : m.hart.hartId = 0

/-- What an atomic operation keeps. -/
structure AmoState.KeepsId (s s' : AmoState) : Prop where
  hart : s'.hart.hartId = s.hart.hartId
  items : s.hart.hartId = 0 → s.reservations.Aligned → s'.reservations.Aligned

section SlowPaths

variable {t : RegionTable} {s s' : AmoState} {rs1 rs2 rd : RegisterIndex}

theorem amoSlowpath_keepsId {op : Word → Word → Word}
    (h : amoSlowpath op t s rs1 rs2 rd = .ok s') : s.KeepsId s' := by
  obtain ⟨old, -, h⟩ := bind_eq_ok.mp h
  obtain ⟨heap, -, h⟩ := bind_eq_ok.mp h
  cases h
  exact ⟨rfl, fun _ hitems => hitems⟩

/-- The address that `lr.w` reads is aligned. -/
theorem lrSlowpath_keepsId (h : lrSlowpath t s rs1 rs2 rd = .ok s') : s.KeepsId s' := by
  obtain ⟨value, hread, h⟩ := bind_eq_ok.mp h
  cases h
  refine ⟨rfl, fun hid hitems => hitems.reserve hid ?_⟩
  by_contra haddress
  rw [mmuRead32Aligned, if_pos haddress] at hread
  cases hread

theorem scSlowpath_keepsId (h : scSlowpath t s rs1 rs2 rd = .ok s') : s.KeepsId s' := by
  unfold scSlowpath at h
  simp only at h
  split at h
  next idx _ =>
    obtain ⟨heap, -, h⟩ := bind_eq_ok.mp h
    cases h
    exact ⟨rfl, fun _ hitems => hitems.clear idx⟩
  next =>
    cases h
    exact ⟨rfl, fun _ hitems => hitems⟩

theorem amoInstructionSlowpath_keepsId {funct5 : Nat}
    (h : amoInstructionSlowpath funct5 t s rs1 rs2 rd = .ok s') : s.KeepsId s' := by
  unfold amoInstructionSlowpath at h
  split at h
  next => exact amoSlowpath_keepsId h
  next => exact amoSlowpath_keepsId h
  next => exact lrSlowpath_keepsId h
  next => exact scSlowpath_keepsId h
  next => exact amoSlowpath_keepsId h
  next => exact amoSlowpath_keepsId h
  next => exact amoSlowpath_keepsId h
  next => exact amoSlowpath_keepsId h
  next => cases h

end SlowPaths

section Callbacks

open Lib.X86

variable {t : TaskId} {host : HostSide} {regs : Reg → Quad} {m m' : Machine Sandbox}
  {outcome : Outcome}

theorem amoCallback_oneId (h : OneIdMachine m)
    (hcall : amoCallback t host regs m = .ok (outcome, m')) : OneIdMachine m' := by
  obtain ⟨rs1, -, hcall⟩ := Result.bind_eq_ok.mp hcall
  obtain ⟨rs2, -, hcall⟩ := Result.bind_eq_ok.mp hcall
  obtain ⟨rd, -, hcall⟩ := Result.bind_eq_ok.mp hcall
  obtain ⟨owner, -, hcall⟩ := Result.bind_eq_ok.mp hcall
  simp only [readAmoOperands_hart, readAmoOperands_world] at hcall
  split at hcall
  next a hslow =>
    cases hcall
    obtain ⟨hhart, hitems⟩ := amoInstructionSlowpath_keepsId hslow
    exact ⟨⟨h.world.harts, hitems h.hart h.world.items⟩, hhart.trans h.hart⟩
  next =>
    cases hcall
    refine ⟨?_, ?_⟩
    · exact readAmoOperands_world m _ rs1 rs2 ▸ h.world
    · simp only [Machine.withHart, amoRaised]
      split
      next => exact h.hart
      next => exact h.hart
  next => cases hcall

theorem ecallCallback_oneId (h : OneIdMachine m)
    (hcall : ecallCallback t host m = .ok (outcome, m')) : OneIdMachine m' := by
  obtain ⟨⟨value, world⟩, hsyscall, hcall⟩ := Result.bind_eq_ok.mp hcall
  have hsynced : (m.world.setHart t m.hart).forest.AllHarts fun hart => hart.hartId = 0 :=
    h.world.harts.setVm h.hart
  obtain ⟨hharts, hreservations⟩ := doSyscall_keepsHarts hartId_keptByCalls hsynced hsyscall
  have hworld : world.OneId := ⟨hharts, hreservations ▸ h.world.items⟩
  cases value with
  | some value =>
    cases hcall
    exact ⟨hworld, hharts t⟩
  | none =>
    cases hcall
    exact ⟨hworld, hharts t⟩

/-- What a block reaches keeps the ids. -/
theorem hartBus_keepsOneId (base : Quad) (t : TaskId) (host : HostSide) :
    (hartBus base (sandboxCallbacks t host)).Keeps OneIdMachine where
  load := by
    intro addr m value m' h hload
    rcases hartBus_load_ok hload with ⟨i, rfl⟩ | rfl
    · exact ⟨h.world, h.hart⟩
    · exact h
  store := by
    intro addr value m m' h hstore
    simp only [hartBus] at hstore
    split at hstore
    next =>
      cases hstore
      exact ⟨h.world, h.hart⟩
    next =>
      cases hstore
      exact ⟨h.world, h.hart⟩
    next => cases hstore
  call := by
    intro f regs m outcome m' h hcall
    have hread : ∀ size, mmuRead t host regs m size = .ok (outcome, m') → OneIdMachine m' := by
      intro size hcall
      obtain ⟨value, -, hcall⟩ := Result.bind_eq_ok.mp hcall
      cases hcall
      exact h
    have hwrite : ∀ size, mmuWrite t host regs m size = .ok (outcome, m') → OneIdMachine m' := by
      intro size hcall
      obtain ⟨world, hwrite, hcall⟩ := Result.bind_eq_ok.mp hcall
      obtain ⟨owner, -, hwrite⟩ := Result.bind_eq_ok.mp hwrite
      obtain ⟨heap, -, hwrite⟩ := Result.bind_eq_ok.mp hwrite
      cases hwrite
      cases hcall
      exact ⟨⟨h.world.harts, h.world.items⟩, h.hart⟩
    cases f with
    | mmuRead8 => exact hread 1 hcall
    | mmuRead16 => exact hread 2 hcall
    | mmuRead32 => exact hread 4 hcall
    | mmuWrite8 => exact hwrite 1 hcall
    | mmuWrite16 => exact hwrite 2 hcall
    | mmuWrite32 => exact hwrite 4 hcall
    | amoInstructionSlowpath => exact amoCallback_oneId h hcall
    | flushTranslationCache =>
      cases hcall
      exact h
    | ecallCallback => exact ecallCallback_oneId h hcall

end Callbacks

/-- An instruction keeps the ids. -/
theorem InstructionRun.next_oneId {run : InstructionRun} {s s' : Sandbox} (h : s.OneId)
    (hnext : run.next s = .ok s') : s'.OneId := by
  obtain ⟨b, -, hnext⟩ := X86.bind_eq_ok.mp hnext
  obtain ⟨⟨x, c⟩, hexec, hnext⟩ := X86.bind_eq_ok.mp hnext
  cases hnext
  have hentry : OneIdMachine (run.entry s).mem := ⟨h, h.harts run.task⟩
  obtain ⟨hworld, hhart⟩ :=
    X86.exec_keeps (hartBus_keepsOneId run.base run.task run.host) hentry hexec
  exact ⟨hworld.harts.setVm hhart, hworld.items⟩

theorem reservationRuns_oneId {s : ReservationHistory} (h : reservationRuns.Reachable s) :
    s.sandbox.OneId := by
  refine h.invariant (P := fun s => s.sandbox.OneId) ?_ ?_
  · rintro s ⟨⟨boot, alloc, forest, hinit, hs⟩, -⟩
    rw [hs]
    exact ⟨applicationSandboxInit_allHarts hartId_keptByCalls hinit,
      Reservations.aligned_initial⟩
  · rintro s run s' hs ⟨⟨-, -, hnext⟩, -⟩
    exact run.next_oneId hs hnext

/-! ## The discipline -/

/-- A store does not raise an exception where it stops. -/
theorem directWrite_ne_exception (heap : HostHeap) (t : RegionTable) (address : Word)
    (accessSize value : Nat) : directWrite heap t address accessSize value ≠ .error .exception := by
  intro h
  rcases bind_eq_error.mp h with h | ⟨found, -, h⟩
  · exact searchPmRegionCallback_ne_error (by decide) _ _ h
  · cases found with
    | none => cases h
    | some i =>
      rcases bind_eq_error.mp h with h | ⟨r, -, h⟩
      · simp only [RegionTable.slot, elem] at h
        split at h <;> cases h
      · rcases bind_eq_error.mp h with h | ⟨p, -, h⟩
        · cases hbase : r.hostBase with
          | none =>
            rw [hbase] at h
            cases h
          | some p =>
            rw [hbase] at h
            cases h
        · simp only [HostHeap.store] at h
          split at h
          next => cases h
          next => split_ifs at h <;> cases h

section Discipline

variable {s s' : ReservationHistory} {run : InstructionRun} {rd rs1 rs2 : RegisterIndex}

/-- An `sc.w` that was run has returned: no item makes it raise an exception. -/
theorem InstructionRun.scReturns {s s' : Sandbox} (hs : s.OneId)
    (hdecode : decode run.instruction = some (.sc rd rs1 rs2)) (hnext : run.next s = .ok s') :
    let hart := (s.forest.vm run.task).hart
    ∃ code, run.ScReturns s rd rs1 rs2 code s' ∧
      (s.reservations.find (hart.registers rs1) hart = none ∧ code = 1 ∧
          s'.forest.heap = s.forest.heap ∨
        s.reservations.find (hart.registers rs1) hart ≠ none ∧ code = 0 ∧
          s.write run.task (hart.registers rs1) 4 (hart.registers rs2).toNat =
            .ok (s.withForest { s.forest with heap := s'.forest.heap })) := by
  have hb : translate run.address run.instruction =
      .ok ⟨.amo, [indexParam rs1, indexParam rs2, indexParam rd, 0x3]⟩ :=
    translate_of_decode hdecode
  obtain ⟨owner, hlink, ⟨a, hslow, rfl⟩ | hraises⟩ := run.next_amo_cases hb hnext
  · refine ⟨_, ⟨owner, a, hlink, hslow, rfl, rfl⟩, ?_⟩
    have hsc : scSlowpath (s.forest.vm owner).memory.regions
        ⟨(s.forest.vm run.task).hart, s.forest.heap, s.reservations⟩ rs1 rs2 rd = .ok a := hslow
    unfold scSlowpath at hsc
    simp only at hsc
    split at hsc
    next idx hfind =>
      obtain ⟨heap, hwrite, hsc⟩ := bind_eq_ok.mp hsc
      cases hsc
      refine Or.inr ⟨by rw [hfind]; exact Option.some_ne_none idx, Hart.setRegister_self .., ?_⟩
      rw [mmuWrite32Aligned, if_neg (not_not.mpr (hs.items.of_find hfind))] at hwrite
      rw [Sandbox.write, hlink, ok_bind, hwrite, ok_bind]
      rfl
    next hfind =>
      cases hsc
      exact Or.inl ⟨hfind, Hart.setRegister_self .., rfl⟩
  · have hsc : scSlowpath (s.forest.vm owner).memory.regions
        ⟨(s.forest.vm run.task).hart, s.forest.heap, s.reservations⟩ rs1 rs2 rd =
          .error .exception := hraises
    unfold scSlowpath at hsc
    simp only at hsc
    split at hsc
    next idx hfind =>
      rcases bind_eq_error.mp hsc with hwrite | ⟨heap, -, hsc⟩
      · rw [mmuWrite32Aligned, if_neg (not_not.mpr (hs.items.of_find hfind))] at hwrite
        exact (directWrite_ne_exception _ _ _ _ _ hwrite).elim
      · cases hsc
    next => cases hsc

/-- The code is the one that the slow path leaves. -/
theorem InstructionRun.ScReturns.unique {s s' s'' : Sandbox} {code code' : Word}
    (h : run.ScReturns s rd rs1 rs2 code s') (h' : run.ScReturns s rd rs1 rs2 code' s'') :
    code = code' := by
  obtain ⟨owner, a, hlink, hslow, hcode, -⟩ := h
  obtain ⟨owner', a', hlink', hslow', hcode', -⟩ := h'
  cases hlink.symm.trans hlink'
  cases hslow.symm.trans hslow'
  exact hcode.symm.trans hcode'

/-- A step of a run keeps to the discipline exactly if it finds no stale item. -/
theorem scDisciplined_step (h : reservationRuns.Reachable s)
    (hstep : reservationRuns.step s run s') :
    ScDisciplined s run s' ↔ NoStaleItem s run := by
  have hs := reservationRuns_oneId h
  obtain ⟨⟨-, -, hnext⟩, -⟩ := hstep
  refine forall₄_congr fun rd rs1 rs2 hdecode => ?_
  have hfind : s.sandbox.reservations.find ((s.hart run).registers rs1) (s.hart run) = none ↔ _ :=
    Reservations.find_eq_none_iff hs.items (hs.harts run.task)
  rw [← hfind]
  obtain ⟨code, hreturns, hcode⟩ := run.scReturns hs hdecode hnext
  constructor
  · rintro ⟨code', hreturns', hcode'⟩
    obtain rfl := hreturns.unique hreturns'
    rcases hcode with ⟨hnone, -, -⟩ | ⟨-, rfl, -⟩
    · exact Or.inr hnone
    · rcases hcode' with ⟨-, hlatest, -⟩ | ⟨hne, -⟩
      · exact Or.inl hlatest
      · exact absurd rfl hne
  · intro hcond
    refine ⟨code, hreturns, ?_⟩
    rcases hcode with ⟨hnone, rfl, hheap⟩ | ⟨hsome, rfl, hwrite⟩
    · exact Or.inr ⟨by decide, hheap⟩
    · exact Or.inl ⟨rfl, hcond.resolve_right hsome, hwrite⟩

/-- In every run of any number of tasks, every `sc.w` keeps to the discipline exactly if
none meets a stale item. -/
theorem scDisciplined_iff {steps : List (System.Step ReservationHistory InstructionRun)}
    (hinit : reservationRuns.init s) (hrun : reservationRuns.Run s steps s') :
    (∀ x ∈ steps, ScDisciplined x.before x.label x.after) ↔
      ∀ x ∈ steps, NoStaleItem x.before x.label := by
  refine forall₂_congr fun x hx => ?_
  obtain ⟨hreach, hstep⟩ := hrun.mem (.init hinit) hx
  exact scDisciplined_step hreach hstep

end Discipline

/-- The history behind an instruction. -/
def ReservationHistory.next (s : ReservationHistory) (run : InstructionRun) :
    Option ReservationHistory :=
  if run.task < s.sandbox.forest.nrTasks ∧ run.task ∉ s.sandbox.exited then
    (run.next s.sandbox).toOption.map fun sandbox =>
      ⟨sandbox, Function.update s.latest run.task (s.latestBehind run)⟩
  else none

theorem ReservationHistory.next_step {s s' : ReservationHistory} {run : InstructionRun}
    (h : s.next run = some s') : reservationRuns.step s run s' := by
  rw [ReservationHistory.next, Option.ite_none_right_eq_some] at h
  obtain ⟨⟨htask, hrunning⟩, h⟩ := h
  obtain ⟨sandbox, hnext, rfl⟩ := Option.map_eq_some_iff.mp h
  exact ⟨⟨htask, hrunning, toOption_eq_some.mp hnext⟩, rfl⟩

/-- The history at the start of a task. -/
def freshHistory : Option ReservationHistory :=
  (applicationSandboxInit { bareBoot slashX with argv := [slashX] } (.lowest 8)).toOption.map
    fun forest => ⟨⟨forest, .initial, []⟩, fun _ => none⟩

theorem freshHistory_init {s : ReservationHistory} (h : freshHistory = some s) :
    reservationRuns.init s := by
  obtain ⟨forest, hinit, rfl⟩ := Option.map_eq_some_iff.mp h
  exact ⟨⟨_, _, forest, toOption_eq_some.mp hinit, rfl⟩, fun _ => rfl⟩

/-- `lr.w x5, (sp)`. -/
def lrAtSp : InstructionRun := firstTaskRuns 0x100122af

/-- `sc.w x6, x0, (sp)`. -/
def scAtSp : InstructionRun := firstTaskRuns 0x1801232f

theorem decode_lrAtSp : decode lrAtSp.instruction = some (.lr 5 2) := rfl

theorem decode_scAtSp : decode scAtSp.instruction = some (.sc 6 2 0) := rfl

/-- The same of the second task. -/
def secondTaskRuns (instruction : Word) : InstructionRun :=
  { firstTaskRuns instruction with task := 1 }

/-- `addi x17, x0, 220`, `addi x10, x0, 0x700` and `ecall`: the first task clones a second one,
which shares its memory. -/
def cloningRuns : List InstructionRun :=
  [firstTaskRuns 0x0dc00893, firstTaskRuns 0x70000513, firstTaskRuns 0x73]

/-- Between the `lr.w` and the `sc.w` of the first task the second one runs
`addi x7, x2, -16` and `lr.w x5, (x7)`. -/
def turningRuns : List InstructionRun :=
  [lrAtSp, secondTaskRuns 0xff010393, secondTaskRuns 0x1003a2af, scAtSp]

theorem noStaleItem_of_decode {s : ReservationHistory} {run : InstructionRun} {i : Instruction}
    (hdecode : decode run.instruction = some i) (hsc : ∀ rd rs1 rs2, i ≠ .sc rd rs1 rs2) :
    NoStaleItem s run := by
  intro rd rs1 rs2 h
  exact absurd (Option.some.inj (hdecode.symm.trans h)) (hsc rd rs1 rs2)

/-- A task stores behind its own `lr.w`, and another one has executed an `lr.w` at another
address in between. -/
theorem scDisciplined_iff_turns :
    ∃ s steps s', reservationRuns.init s ∧ reservationRuns.Run s steps s' ∧
      steps.map (fun x => x.label) = cloningRuns ++ turningRuns ∧ s'.latest 0 = none ∧
      s'.latest 1 ≠ none ∧ ∀ x ∈ steps, ScDisciplined x.before x.label x.after := by
  have hrun : (do
      let s ← freshHistory
      let s₁ ← s.next (firstTaskRuns 0x0dc00893)
      let s₂ ← s₁.next (firstTaskRuns 0x70000513)
      let s₃ ← s₂.next (firstTaskRuns 0x73)
      let s₄ ← s₃.next lrAtSp
      let s₅ ← s₄.next (secondTaskRuns 0xff010393)
      let s₆ ← s₅.next (secondTaskRuns 0x1003a2af)
      let s₇ ← s₆.next scAtSp
      return decide (s₆.latest 0 = some ((s₆.hart scAtSp).registers 2) ∧ s₇.latest 0 = none ∧
        s₇.latest 1 ≠ none)) = some true := by
    decide +kernel
  simp only [Option.bind_eq_bind, Option.bind_eq_some_iff, Option.pure_def, Option.some.injEq,
    decide_eq_true_eq] at hrun
  obtain ⟨s, hinit, s₁, h₁, s₂, h₂, s₃, h₃, s₄, h₄, s₅, h₅, s₆, h₆, s₇, h₇, hown, hnone, hother⟩ :=
    hrun
  have hsteps := System.Run.cons (ReservationHistory.next_step h₁)
    (.cons (ReservationHistory.next_step h₂) (.cons (ReservationHistory.next_step h₃)
      (.cons (ReservationHistory.next_step h₄) (.cons (ReservationHistory.next_step h₅)
        (.cons (ReservationHistory.next_step h₆)
          (.cons (ReservationHistory.next_step h₇) (.nil s₇)))))))
  refine ⟨s, _, s₇, freshHistory_init hinit, hsteps, rfl, hnone, hother, ?_⟩
  rw [scDisciplined_iff (freshHistory_init hinit) hsteps]
  simp only [List.forall_mem_cons, List.not_mem_nil, false_imp_iff, implies_true, and_true]
  refine ⟨?_, ?_, ?_, ?_, ?_, ?_, ?_⟩
  · exact noStaleItem_of_decode (i := .opImm .addi 17 0 220) rfl (by simp)
  · exact noStaleItem_of_decode (i := .opImm .addi 10 0 0x700) rfl (by simp)
  · exact noStaleItem_of_decode (i := .ecall) rfl (by simp)
  · exact noStaleItem_of_decode decode_lrAtSp (by simp)
  · exact noStaleItem_of_decode (i := .opImm .addi 7 2 0xfffffff0) rfl (by simp)
  · exact noStaleItem_of_decode (i := .lr 5 7) rfl (by simp)
  · intro rd rs1 rs2 hdecode
    cases decode_scAtSp.symm.trans hdecode
    exact Or.inl hown

/-- Behind two `lr.w` at an address, an `sc.w` leaves an item for a second one. -/
theorem sc_takes_duplicate :
    ¬ ∀ s steps s', reservationRuns.init s → reservationRuns.Run s steps s' →
      ∀ x ∈ steps, ScDisciplined x.before x.label x.after := by
  intro h
  have hrun : (do
      let s ← freshHistory
      let s₁ ← s.next lrAtSp
      let s₂ ← s₁.next lrAtSp
      let s₃ ← s₂.next scAtSp
      let _ ← s₃.next scAtSp
      return (s₃.latest 0, s₃.sandbox.reservations.items.any fun item =>
        item.valid && item.addr = (s₃.hart scAtSp).registers 2)) = some (none, true) := by
    decide +kernel
  simp only [Option.bind_eq_bind, Option.bind_eq_some_iff, Option.pure_def, Option.some.injEq,
    Prod.mk.injEq, List.any_eq_true, Bool.and_eq_true, decide_eq_true_eq] at hrun
  obtain ⟨s, hinit, s₁, h₁, s₂, h₂, s₃, h₃, s₄, h₄, hlatest, item, hitem, hvalid, haddr⟩ := hrun
  have hsteps := System.Run.cons (ReservationHistory.next_step h₁)
    (.cons (ReservationHistory.next_step h₂) (.cons (ReservationHistory.next_step h₃)
      (.cons (ReservationHistory.next_step h₄) (.nil s₄))))
  have hlast : (⟨s₃, scAtSp, s₄⟩ : System.Step _ _) ∈ [⟨s, lrAtSp, s₁⟩, ⟨s₁, lrAtSp, s₂⟩,
      ⟨s₂, scAtSp, s₃⟩, ⟨s₃, scAtSp, s₄⟩] := by simp
  have hreach := (hsteps.mem (.init (freshHistory_init hinit)) hlast).1
  have hdisciplined := h s _ s₄ (freshHistory_init hinit) hsteps _ hlast
  have hstale := (scDisciplined_step hreach (ReservationHistory.next_step h₄)).mp hdisciplined
  rcases hstale 6 2 0 decode_scAtSp with hown | hnone
  · rw [show scAtSp.task = 0 from rfl, hlatest] at hown
    cases hown
  · exact hnone item hitem hvalid haddr

end Hyrule
