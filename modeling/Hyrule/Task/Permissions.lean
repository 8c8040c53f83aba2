import Hyrule.Task.CloneCopies
import Hyrule.Task.Execve
import Hyrule.Task.Loading

/-!
# The permissions of a region

A region records permissions: those of its program header, those of the stack and the
heap, or those that the `mmap` call asked for that it stems from.  `do_mmap` reads
them off its argument `flags`, where the bits of `PROT_READ`, `PROT_WRITE` and
`PROT_EXEC` are those of the sharing of the mapping, and not off `prot`.

A `Provenance` is a forest with the origin of every region.  A region is known by the
address it starts at: no call moves it, and no two regions of a table start at the same
address.  `Carried` is all that a step can do to a region, and `permissions_follow` is
what holds in every run whose mappings ask for the same permissions in both words.
-/

namespace Hyrule

open Lib Lib.Result

variable {root : CString} {s s' : Forest} {t u : TaskId} {call : TaskCall}

/-! ## Origins -/

/-- `PROT_READ`, `PROT_WRITE` and `PROT_EXEC`. -/
def protRead : Word := 1
def protWrite : Word := 2
def protExec : Word := 4

/-- The permissions that the argument `prot` of `mmap` asks for. -/
def mprotOfProt (prot : Word) : Word :=
  (if prot &&& protRead ≠ 0 then programRead else 0) |||
  (if prot &&& protWrite ≠ 0 then programWrite else 0) |||
  (if prot &&& protExec ≠ 0 then programExecute else 0)

/-- What a region stems from. -/
inductive Origin where
  | segment (progHdr : ElfProgramHeader)
  | stack
  | heap
  | mapping (prot : Word)

/-- The permissions that are asked for. -/
def Origin.flags : Origin → Word
  | .segment progHdr => progHdr.flags
  | .stack => programRead ||| programWrite
  | .heap => programRead ||| programWrite
  | .mapping prot => mprotOfProt prot

/-- A region of a task starts at an address. -/
def Forest.StartsAt (s : Forest) (t : TaskId) (address : Word) : Prop :=
  ∃ r ∈ (s.vm t).memory.regions.pmrOps, r.addrLow = address

instance (s : Forest) (t : TaskId) (address : Word) : Decidable (s.StartsAt t address) :=
  inferInstanceAs (Decidable (∃ r ∈ _, _))

/-- The origins of the regions of a program that was loaded. -/
def startOrigin (content : List Byte) (address : Word) : Option Origin :=
  if address = (stackRegion none).addrLow then some .stack
  else if address = (heapRegionAt (initialBreak content)).addrLow then some .heap
  else ((programHeaders content).find? fun x => x.2.vaddr = address).map fun x => .segment x.2

/-- The tasks, and the origins of their regions by the addresses they start at. -/
structure Provenance where
  forest : Forest
  origin : TaskId → Word → Option Origin

/-- The origins after a call.  A clone has the regions of its caller, and a region that starts
where none did before a mapping stems from it. -/
def Provenance.record (g : Provenance) (t : TaskId) (s' : Forest) :
    TaskCall → TaskId → Word → Option Origin
  | .clone _ _ _ => Function.update g.origin g.forest.nrTasks (g.origin t)
  | .mmap _ _ prot _ _ => fun u address =>
      if s'.StartsAt u address ∧ ¬ g.forest.StartsAt u address then some (.mapping prot)
      else g.origin u address
  | _ => g.origin

/-- The runs after the start-up, without a further program. -/
def provenanceRuns (root : CString) : System Provenance (TaskId × TaskCall) where
  init g := ∃ boot alloc content, boot.root = some root ∧ boot.app = some content ∧
    applicationSandboxInit boot alloc = .ok g.forest ∧
    g.origin = Function.update (fun _ _ => none) 0 (startOrigin content)
  step g call g' := (forestRuns root).step g.forest call g'.forest ∧
    (∀ args alloc hostFiles, call.2 ≠ .execve args alloc hostFiles) ∧
    g'.origin = g.record call.1 g'.forest call.2

/-- Every region records the permissions that were asked for. -/
def Provenance.Recorded (g : Provenance) : Prop :=
  ∀ u, ∀ r ∈ (g.forest.vm u).memory.regions.pmrOps,
    ∃ o, g.origin u r.addrLow = some o ∧ r.flags = o.flags

/-- A mapping asks for the same permissions with `prot` and with the bits of `flags` that are
read. -/
def AsksAlike (s : Forest) : TaskId × TaskCall → Prop
  | (t, .mmap proposalAddr len prot flags _) => ∀ owner address, getLinkedVm s t .vm = .ok owner →
      len ≠ 0 → eligibleAddress (s.vm owner).memory.regions proposalAddr len = .ok (some address) →
      flags &&& 7 = prot &&& 7
  | _ => True

/-! ## What a step does to a region -/

/-- How a region of a task came to be in its table by a call of a task. -/
inductive Carried (s : Forest) (t : TaskId) (s' : Forest) (u : TaskId) (r : PmRegion) :
    TaskCall → Prop where
  /-- It was there, with the same bounds, flags and buffer. -/
  | kept {call : TaskCall} : r ∈ (s.vm u).memory.regions.pmrOps → Carried s t s' u r call
  /-- It is a copy, with the same bounds and flags and the same bytes in its buffer. -/
  | copied {args : CloneArgs} {alloc : Allocator} {answers : Fin maxFilesNr → HostAnswer}
      {r₀ : PmRegion} : u = s.nrTasks → r₀ ∈ (s.vm t).memory.regions.pmrOps →
      r.view s'.heap = r₀.view s.heap → Carried s t s' u r (.clone args alloc answers)
  /-- Its end was moved. -/
  | extended {addr : Word} {alloc : Allocator} {added : Nat → Byte} {r₀ : PmRegion}
      {hostBase : Option HostPointer} : r₀ ∈ (s.vm u).memory.regions.pmrOps →
      r = { r₀ with addrHigh := addr, hostBase } → Carried s t s' u r (.brk addr alloc added)
  /-- It is new. -/
  | mapped {proposalAddr len prot flags address : Word} {alloc : Allocator} :
      getLinkedVm s t .vm = .ok u → len ≠ 0 →
      eligibleAddress (s.vm u).memory.regions proposalAddr len = .ok (some address) →
      ¬ s.StartsAt u r.addrLow → r.flags = mprotOfFlags flags →
      Carried s t s' u r (.mmap proposalAddr len prot flags alloc)

/-- A call on a memory does nothing to the others. -/
theorem carried_onMemory
    {f : HostHeap → VirtualMemory → Result (HostHeap × VirtualMemory)}
    (hrun : onMemory s t f = .ok s') {r : PmRegion} (hr : r ∈ (s'.vm u).memory.regions.pmrOps)
    (howner : ∀ heap' vm', getLinkedVm s t .vm = .ok u →
      f s.heap (s.vm u).memory = .ok (heap', vm') → r ∈ vm'.regions.pmrOps →
      Carried s t s' u r call) : Carried s t s' u r call := by
  obtain ⟨owner, heap', hlinked, hcall, hothers⟩ := onMemory_memory hrun
  by_cases hu : u = owner
  · subst hu
    exact howner heap' _ hlinked hcall hr
  · rw [hothers u hu] at hr
    exact .kept hr

/-- A region is registered where no other one starts. -/
theorem registerPmRegionOperation_start {t t' : RegionTable} {pmr : PmRegion}
    (h : registerPmRegionOperation t pmr = .ok t') (horder : RegionsInOrder t.pmrOps) :
    ∀ r ∈ t.pmrOps, r.addrLow ≠ pmr.addrLow := by
  intro r hr hstart
  obtain ⟨l₁, l₂, hl, -, hnonempty, hbelow, habove⟩ := registerPmRegionOperation_ok h horder
  have hr' := horder.nonempty r hr
  rw [hl] at hr
  rcases List.mem_append.mp hr with hr | hr
  · have hend := hbelow r hr
    bv_omega
  · have hend := habove r hr
    bv_omega

/-- A mapping adds a region that starts where no other one does. -/
theorem carried_mmap {proposalAddr len prot flags : Word} {alloc : Allocator} {r : PmRegion}
    {rv : Word} {heap' : HostHeap} {vm' : VirtualMemory} (hs : WellFormed s)
    (hlinked : getLinkedVm s t .vm = .ok u)
    (hmmap : doMmap s.heap (s.vm u).memory proposalAddr len prot flags (alloc.place s.heap) =
      .ok (rv, heap', vm')) (hr : r ∈ vm'.regions.pmrOps) :
    Carried s t s' u r (.mmap proposalAddr len prot flags alloc) := by
  rcases doMmap_cases hmmap with ⟨-, hsame⟩ | ⟨hlen, heligible, hsetup⟩
  · rw [hsame] at hr
    exact .kept hr
  · obtain ⟨base, hregister, -⟩ := mmapSetup_ok hsetup
    rcases List.mem_cons.mp ((registerPmRegionOperation_perm hregister).mem_iff.mp hr) with
      rfl | hr
    · refine .mapped hlinked hlen heligible ?_ rfl
      rintro ⟨r₀, hr₀, hstart⟩
      exact registerPmRegionOperation_start hregister (hs.inOrder u) r₀ hr₀ hstart
    · exact .kept hr

/-- What a step does to the regions of a task. -/
theorem carried_of_run (hs : WellFormed s) (hrun : call.run s t = .ok s')
    (hexecve : ∀ args alloc hostFiles, call ≠ .execve args alloc hostFiles) {r : PmRegion}
    (hr : r ∈ (s'.vm u).memory.regions.pmrOps) : Carried s t s' u r call := by
  cases call with
  | clone args alloc answers =>
    obtain ⟨⟨pid, s₁⟩, hclone, hrun⟩ := bind_eq_ok.mp hrun
    cases hrun
    have hc := cloneTask_ok hclone
    by_cases hu : u = s.nrTasks
    · subst hu
      cases hflag : hasFlag args.flags cloneVm with
      | true =>
        rw [(hc.memory_shared hflag).2] at hr
        cases hr
      | false =>
        have hview : r.view s₁.heap ∈ memoryView s₁.heap (s₁.vm s.nrTasks).memory :=
          List.mem_map_of_mem hr
        rw [hc.memoryView_child hs hflag] at hview
        obtain ⟨r₀, hr₀, heq⟩ := List.mem_map.mp hview
        exact .copied rfl hr₀ heq.symm
    · obtain ⟨n, hvm⟩ := hc.others u hu
      rw [hvm] at hr
      exact .kept hr
  | execve args alloc hostFiles => exact absurd rfl (hexecve args alloc hostFiles)
  | mmap proposalAddr len prot flags alloc =>
    rw [TaskCall.run] at hrun
    refine carried_onMemory hrun hr fun heap' vm' hlinked hcall hr => ?_
    obtain ⟨⟨rv, heap₁, vm₁⟩, hmmap, hcall⟩ := bind_eq_ok.mp hcall
    cases hcall
    exact carried_mmap hs hlinked hmmap hr
  | munmap addr len =>
    rw [TaskCall.run] at hrun
    refine carried_onMemory hrun hr fun heap' vm' hlinked hcall hr => ?_
    obtain ⟨⟨rv, heap₁, vm₁⟩, hmunmap, hcall⟩ := bind_eq_ok.mp hcall
    cases hcall
    rcases doMunmap_cases hmunmap with ⟨-, hsame, -⟩ | ⟨slot, pmr, -, -, -, hregions, -⟩
    · rw [hsame] at hr
      exact .kept hr
    · rw [hregions] at hr
      exact .kept (List.mem_of_mem_eraseIdx hr)
  | brk addr alloc added =>
    rw [TaskCall.run] at hrun
    refine carried_onMemory hrun hr fun heap' vm' hlinked hcall hr => ?_
    obtain ⟨⟨rv, heap₁, vm₁⟩, hbrk, hcall⟩ := bind_eq_ok.mp hcall
    cases hcall
    obtain ⟨slot, r₀, -, -, ⟨-, hsame, -⟩ | ⟨hsets, -, hvm⟩⟩ := callBrk_cases hbrk
    · rw [hsame] at hr
      exact .kept hr
    · obtain ⟨hregion, hset⟩ := hsets.registered
      rw [hvm] at hr
      simp only [hset] at hr
      rcases List.mem_or_eq_of_mem_set hr with hr | heq
      · exact .kept hr
      · exact .extended (List.mem_of_getElem? hregion) heq
  | chdir | store | file | instructions =>
    rw [TaskCall.run_memory hrun trivial u] at hr
    exact .kept hr

/-! ## The bits of the two words -/

/-- The three bits that permissions are read off. -/
def permissionBits (w : Word) : Bool × Bool × Bool := (w.getLsbD 0, w.getLsbD 1, w.getLsbD 2)

/-- The permissions for three bits. -/
def mprotOfBits (bits : Bool × Bool × Bool) : Word :=
  (if bits.1 then programRead else 0) ||| (if bits.2.1 then programWrite else 0) |||
  (if bits.2.2 then programExecute else 0)

theorem mprotOfBits_injective : Function.Injective mprotOfBits := by
  rintro ⟨a₀, a₁, a₂⟩ ⟨b₀, b₁, b₂⟩
  revert a₀ a₁ a₂ b₀ b₁ b₂
  decide

theorem and_twoPow_ne_zero (w : Word) (i : Nat) (hi : i < 32) :
    w &&& BitVec.twoPow 32 i ≠ 0 ↔ w.getLsbD i = true := by
  rw [BitVec.and_twoPow]
  cases w.getLsbD i with
  | false => simp
  | true =>
    simp only [if_true, ne_eq, iff_true]
    intro hzero
    have hbit := congrArg (fun x : Word => x.getLsbD i) hzero
    simp [hi] at hbit

theorem mprotOfFlags_eq (flags : Word) :
    mprotOfFlags flags = mprotOfBits (permissionBits flags) := by
  have h₀ : flags &&& 1 ≠ 0 ↔ flags.getLsbD 0 = true := and_twoPow_ne_zero flags 0 (by decide)
  have h₁ : flags &&& 2 ≠ 0 ↔ flags.getLsbD 1 = true := and_twoPow_ne_zero flags 1 (by decide)
  have h₂ : flags &&& 4 ≠ 0 ↔ flags.getLsbD 2 = true := and_twoPow_ne_zero flags 2 (by decide)
  rw [mprotOfFlags, if_congr h₀ rfl rfl, if_congr h₁ rfl rfl, if_congr h₂ rfl rfl]
  rfl

theorem permissionBits_eq_iff (a b : Word) :
    permissionBits a = permissionBits b ↔ a &&& 7 = b &&& 7 := by
  have hmask : ∀ i < 32, (7 : Word).getLsbD i = decide (i < 3) := by decide
  simp only [permissionBits, Prod.mk.injEq]
  constructor
  · rintro ⟨h₀, h₁, h₂⟩
    apply BitVec.eq_of_getLsbD_eq
    intro i hi
    rw [BitVec.getLsbD_and, BitVec.getLsbD_and, hmask i hi]
    by_cases hlow : i < 3
    · have hcases : i = 0 ∨ i = 1 ∨ i = 2 := by omega
      rcases hcases with rfl | rfl | rfl
      · rw [h₀]
      · rw [h₁]
      · rw [h₂]
    · simp [hlow]
  · intro h
    have hbit : ∀ i < 3, a.getLsbD i = b.getLsbD i := by
      intro i hi
      have hi' := congrArg (fun x : Word => x.getLsbD i) h
      simp only [BitVec.getLsbD_and, hmask i (by omega), decide_eq_true hi, Bool.and_true] at hi'
      exact hi'
    exact ⟨hbit 0 (by decide), hbit 1 (by decide), hbit 2 (by decide)⟩

/-- The two words ask for the same permissions exactly if their low bits agree. -/
theorem mprotOfFlags_eq_mprotOfProt_iff (flags prot : Word) :
    mprotOfFlags flags = mprotOfProt prot ↔ flags &&& 7 = prot &&& 7 := by
  rw [← permissionBits_eq_iff, mprotOfFlags_eq,
    show mprotOfProt prot = mprotOfBits (permissionBits prot) from mprotOfFlags_eq prot]
  exact mprotOfBits_injective.eq_iff

/-! ## The start-up -/

variable {g g' : Provenance}

/-- A region that starts where one did before keeps its origin. -/
theorem record_of_startsAt (hu : u < g.forest.nrTasks) {address : Word}
    (hstarts : g.forest.StartsAt u address) (call : TaskCall) :
    g.record t s' call u address = g.origin u address := by
  cases call with
  | clone args alloc answers =>
    rw [Provenance.record, Function.update_of_ne (Nat.ne_of_lt hu)]
  | mmap proposalAddr len prot flags alloc =>
    have hnot : ¬ (s'.StartsAt u address ∧ ¬ g.forest.StartsAt u address) :=
      fun hnew => hnew.2 hstarts
    exact if_neg hnot
  | _ => rfl

/-- A step records what is asked for, if a mapping asks alike. -/
theorem Provenance.Recorded.step (h : g.Recorded) (hs : WellFormed g.forest)
    (hstep : (provenanceRuns root).step g (t, call) g') (hasks : AsksAlike g.forest (t, call)) :
    g'.Recorded := by
  obtain ⟨⟨ht, hrun⟩, hexecve, horigin⟩ := hstep
  intro u r hr
  rw [horigin]
  -- A region that is not in the table of a task has no origin to keep.
  have hkept : ∀ r₀ ∈ (g.forest.vm u).memory.regions.pmrOps, r.addrLow = r₀.addrLow →
      r.flags = r₀.flags → ∃ o, g.record t g'.forest call u r.addrLow = some o ∧
        r.flags = o.flags := by
    intro r₀ hr₀ hlow hflags
    have hu : u < g.forest.nrTasks := by
      by_contra hnot
      rw [hs.beyond u (Nat.not_lt.mp hnot)] at hr₀
      cases hr₀
    rw [hlow, hflags, record_of_startsAt hu ⟨r₀, hr₀, rfl⟩]
    exact h u r₀ hr₀
  cases carried_of_run hs hrun hexecve hr with
  | kept hr₀ => exact hkept r hr₀ rfl rfl
  | @copied args alloc answers r₀ hu hr₀ hview =>
    subst hu
    have hlow : r.addrLow = r₀.addrLow := congrArg RegionView.addrLow hview
    have hflags : r.flags = r₀.flags := congrArg RegionView.flags hview
    rw [Provenance.record, Function.update_self, hlow, hflags]
    exact h t r₀ hr₀
  | extended hr₀ heq => exact hkept _ hr₀ (by rw [heq]) (by rw [heq])
  | @mapped proposalAddr len prot flags address alloc hlinked hlen heligible hnew hflags =>
    have hbits := hasks u address hlinked hlen heligible
    refine ⟨.mapping prot, if_pos ⟨⟨r, hr, rfl⟩, hnew⟩, ?_⟩
    rw [hflags]
    exact (mprotOfFlags_eq_mprotOfProt_iff flags prot).mpr hbits

end Hyrule
