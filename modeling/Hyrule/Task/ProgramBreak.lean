import Hyrule.Task.Program

/-!
# The program break

`vma_heap` is the slot that the heap has when `heap_init` registers it.  A region
that is mapped below the heap moves the heap one slot up, and one that is unmapped
below moves it one slot down.  From then on `call_brk` works on another region.

`brk_stable` says that in runs without such calls `call_brk` changes only the heap
and knows its end.  `handle_lost_of_mmap` and `handle_lost_of_munmap` say that
every such call makes `call_brk` return a wrong break.
-/

namespace Hyrule

open Lib Lib.Result

/-! ## Runs -/

/-- A memory with the start of the heap region and the break that was set last. -/
structure BreakState where
  heap : HostHeap
  vm : VirtualMemory
  heapLow : Word
  lastBreak : Word

/-- The break that `heap_init` chooses for a program. -/
def chosenBreak (alloc : Allocator) (heap : HostHeap) (memory : VirtualMemory)
    (content : Option (List Byte)) : Result Word := do
  let content ← require content
  let (hdr, file) ← elfHeader ⟨content, 0⟩
  let hdr ← require hdr
  let st ← (List.range hdr.phnum).foldlM (loadSegment alloc hdr) ⟨file, heap, memory, 0⟩
  return (st.progBreak + 4096 * 16) &&& ~~~4095

/-- The address lies in the region that starts there. -/
def Names (t : RegionTable) (addr low : Word) : Prop :=
  ∃ r ∈ t.pmrOps, r.Contains addr ∧ r.addrLow = low

/-- The stack region starts here. -/
def stackLow : Word := defaultStackCeiling - BitVec.ofNat 32 defaultStackSize

/-- A call of `brk`, `mmap` or `munmap`.  `realloc` succeeds, and `munmap` names neither
the heap nor the stack. -/
inductive BreakStep : BreakState → MemoryCall → BreakState → Prop where
  | set {s : BreakState} {addr rv : Word} {p : HostPointer} {added : Nat → Byte}
      {heap' : HostHeap} {vm' : VirtualMemory} :
      callBrk s.heap s.vm addr (some p) added = .ok (rv, heap', vm') →
      (∃ slot r, SetsBreak s.vm addr slot r) →
      BreakStep s (.brk addr (some p) added) { s with heap := heap', vm := vm', lastBreak := addr }
  | get {s : BreakState} {addr rv : Word} {p : HostPointer} {added : Nat → Byte}
      {heap' : HostHeap} {vm' : VirtualMemory} :
      callBrk s.heap s.vm addr (some p) added = .ok (rv, heap', vm') →
      (¬ ∃ slot r, SetsBreak s.vm addr slot r) →
      BreakStep s (.brk addr (some p) added) { s with heap := heap', vm := vm' }
  | mmap {s : BreakState} {proposalAddr len prot flags rv : Word} {rc : Option HostPointer}
      {heap' : HostHeap} {vm' : VirtualMemory} :
      doMmap s.heap s.vm proposalAddr len prot flags rc = .ok (rv, heap', vm') →
      BreakStep s (.mmap proposalAddr len prot flags rc) { s with heap := heap', vm := vm' }
  | munmap {s : BreakState} {addr len rv : Word} {heap' : HostHeap} {vm' : VirtualMemory} :
      ¬ Names s.vm.regions addr s.heapLow → ¬ Names s.vm.regions addr stackLow →
      doMunmap s.heap s.vm addr len = .ok (rv, heap', vm') →
      BreakStep s (.munmap addr len) { s with heap := heap', vm := vm' }

/-- The runs from a state that `program_init` produces. -/
def breakRuns : System BreakState MemoryCall where
  init s := ∃ alloc heap hart stale content hart',
    programInit alloc heap hart ⟨⟨[], stale⟩, none, none⟩ content = .ok (s.heap, hart', s.vm) ∧
    chosenBreak alloc heap ⟨⟨[], stale⟩, none, none⟩ content = .ok s.lastBreak ∧
    s.heapLow = s.lastBreak - 1
  step := BreakStep

/-! ## The law -/

/-- `call_brk` changes no region but the heap, and without an address it returns the last
break. -/
structure BreakLaw (s : BreakState) : Prop where
  only_heap : ∀ addr p added rv heap' vm',
    callBrk s.heap s.vm addr (some p) added = .ok (rv, heap', vm') →
    vm'.regions.pmrOps.filter (·.addrLow ≠ s.heapLow) =
      s.vm.regions.pmrOps.filter (·.addrLow ≠ s.heapLow)
  returns_last : ∀ rc added,
    callBrk s.heap s.vm 0 rc added = .ok (s.lastBreak, s.heap, s.vm)

/-- A call maps and unmaps nothing below the heap, and a new region finds a slot in the
array. -/
def StaysAbove (s : BreakState) : MemoryCall → Prop
  | .mmap proposalAddr len _ _ _ => s.vm.regions.nrPmrOps < maxVmaNr ∧
      ∀ a, eligibleAddress s.vm.regions proposalAddr len = .ok (some a) → s.heapLow < a
  | .munmap addr _ => ∀ r ∈ s.vm.regions.pmrOps, r.Contains addr → s.heapLow < r.addrLow
  | _ => True

/-- The slot of the heap holds the heap. -/
structure HandleStands (s : BreakState) : Prop where
  inOrder : RegionsInOrder s.vm.regions.pmrOps
  stands : ∃ slot r, s.vm.vmaHeap = some slot ∧ s.vm.regions.pmrOps[slot]? = some r ∧
    r.addrLow = s.heapLow ∧ r.addrHigh = s.lastBreak

/-! ## A handle that stands -/

/-- What `call_brk` returns without an address. -/
theorem callBrk_zero {heap : HostHeap} {vm : VirtualMemory} {slot : Nat} {r : PmRegion}
    {rc : Option HostPointer} {added : Nat → Byte} (hslot : vm.vmaHeap = some slot)
    (hr : vm.regions.pmrOps[slot]? = some r) :
    callBrk heap vm 0 rc added = .ok (r.addrHigh, heap, vm) := by
  have hfound : vm.regions.slot slot = .ok r := by
    obtain ⟨hlt, -⟩ := List.getElem?_eq_some_iff.mp hr
    rw [RegionTable.slot, elem_eq_ok, List.getElem?_append_left hlt, hr]
  simp only [callBrk, hslot, deref, ok_bind, hfound]
  rfl

namespace HandleStands

variable {s s' : BreakState}

/-- The region that `call_brk` works on is the heap. -/
theorem handle_eq (h : HandleStands s) {slot : Nat} {r : PmRegion}
    (hslot : s.vm.vmaHeap = some slot) (hr : s.vm.regions.slot slot = .ok r) :
    s.vm.regions.pmrOps[slot]? = some r ∧ r.addrLow = s.heapLow ∧ r.addrHigh = s.lastBreak := by
  obtain ⟨slot', r', hslot', hr', hlow, hhigh⟩ := h.stands
  obtain rfl := Option.some.inj (hslot'.symm.trans hslot)
  obtain ⟨hlt, -⟩ := List.getElem?_eq_some_iff.mp hr'
  rw [RegionTable.slot, elem_eq_ok, List.getElem?_append_left hlt] at hr
  obtain rfl := Option.some.inj (hr'.symm.trans hr)
  exact ⟨hr, hlow, hhigh⟩

/-- A region above the heap leaves it in its slot. -/
theorem mmap (h : HandleStands s) {proposalAddr len prot flags rv : Word}
    {rc : Option HostPointer} {heap' : HostHeap} {vm' : VirtualMemory}
    (hmmap : doMmap s.heap s.vm proposalAddr len prot flags rc = .ok (rv, heap', vm'))
    (habove : ∀ a, eligibleAddress s.vm.regions proposalAddr len = .ok (some a) → s.heapLow < a) :
    HandleStands { s with heap := heap', vm := vm' } := by
  refine ⟨doMmap_inOrder h.inOrder hmmap, ?_⟩
  obtain ⟨slot, r, hslot, hr, hlow, hhigh⟩ := h.stands
  rcases doMmap_cases hmmap with ⟨-, rfl⟩ | ⟨-, heligible, hsetup⟩
  · exact ⟨slot, r, hslot, hr, hlow, hhigh⟩
  · obtain ⟨base, hregister, hhandle, -⟩ := mmapSetup_ok hsetup
    obtain ⟨l₁, l₂, hl, hregions, hnonempty, -, habove₂⟩ :=
      registerPmRegionOperation_ok hregister h.inOrder
    refine ⟨slot, r, hhandle.trans hslot, ?_, hlow, hhigh⟩
    have hlt : slot < l₁.length := by
      by_contra hnot
      rw [hl, List.getElem?_append_right (by omega)] at hr
      have hbelow := habove₂ r (List.mem_of_getElem? hr)
      have hmapped := habove rv heligible
      simp only at hbelow hnonempty
      bv_omega
    simp only [hregions]
    rw [List.getElem?_append_left hlt]
    rwa [hl, List.getElem?_append_left hlt] at hr

/-- A region above the heap is taken out, and the heap stays in its slot. -/
theorem munmap (h : HandleStands s) {addr len rv : Word} {heap' : HostHeap} {vm' : VirtualMemory}
    (hmunmap : doMunmap s.heap s.vm addr len = .ok (rv, heap', vm'))
    (habove : ∀ r ∈ s.vm.regions.pmrOps, r.Contains addr → s.heapLow < r.addrLow) :
    HandleStands { s with heap := heap', vm := vm' } := by
  refine ⟨doMunmap_inOrder h.inOrder hmunmap, ?_⟩
  obtain ⟨slot, r, hslot, hr, hlow, hhigh⟩ := h.stands
  rcases doMunmap_cases hmunmap with
    ⟨-, rfl, -⟩ | ⟨i, pmr, hpmr, hcontains, -, hregions, hhandle, -⟩
  · exact ⟨slot, r, hslot, hr, hlow, hhigh⟩
  · refine ⟨slot, r, hhandle.trans hslot, ?_, hlow, hhigh⟩
    have hmapped := habove pmr (List.mem_of_getElem? hpmr) hcontains
    have hnonempty := h.inOrder.nonempty pmr (List.mem_of_getElem? hpmr)
    have hlt : slot < i := by
      obtain ⟨hi, rfl⟩ := List.getElem?_eq_some_iff.mp hpmr
      obtain ⟨hs, rfl⟩ := List.getElem?_eq_some_iff.mp hr
      rcases Nat.lt_trichotomy slot i with hlt | rfl | hlt
      · exact hlt
      · rw [hlow] at hmapped
        bv_omega
      · have hbelow := List.pairwise_iff_getElem.mp h.inOrder.below i slot hi hs hlt
        bv_omega
    simp only [hregions]
    rw [List.getElem?_eraseIdx_of_lt hlt]
    exact hr

/-- The end of the heap moves, and with it the break. -/
theorem set (h : HandleStands s) {addr rv : Word} {rc : Option HostPointer} {added : Nat → Byte}
    {heap' : HostHeap} {vm' : VirtualMemory}
    (hbrk : callBrk s.heap s.vm addr rc added = .ok (rv, heap', vm'))
    (hsets : ∃ slot r, SetsBreak s.vm addr slot r) :
    HandleStands { s with heap := heap', vm := vm', lastBreak := addr } := by
  refine ⟨callBrk_inOrder h.inOrder hbrk, ?_⟩
  obtain ⟨slot, r, hslot, hr, ⟨-, -, hnot⟩ | ⟨hsets, -, rfl⟩⟩ := callBrk_cases hbrk
  · obtain ⟨slot', r', hsets⟩ := hsets
    obtain rfl := Option.some.inj (hsets.handle.symm.trans hslot)
    obtain rfl := Except.ok.inj (hsets.region.symm.trans hr)
    exact absurd hsets hnot
  · obtain ⟨hregion, hlow, -⟩ := h.handle_eq hslot hr
    obtain ⟨hlt, -⟩ := List.getElem?_eq_some_iff.mp hregion
    simp only [hsets.registered.2]
    exact ⟨slot, _, hslot, List.getElem?_set_self hlt, hlow, rfl⟩

/-- A call that sets no break changes nothing. -/
theorem get (h : HandleStands s) {addr rv : Word} {rc : Option HostPointer} {added : Nat → Byte}
    {heap' : HostHeap} {vm' : VirtualMemory}
    (hbrk : callBrk s.heap s.vm addr rc added = .ok (rv, heap', vm'))
    (hkeeps : ¬ ∃ slot r, SetsBreak s.vm addr slot r) :
    HandleStands { s with heap := heap', vm := vm' } := by
  obtain ⟨slot, r, -, -, ⟨rfl, rfl, -⟩ | ⟨hsets, -⟩⟩ := callBrk_cases hbrk
  · exact h
  · exact absurd ⟨slot, r, hsets⟩ hkeeps

theorem step (h : HandleStands s) {call : MemoryCall} (habove : StaysAbove s call)
    (hstep : BreakStep s call s') : HandleStands s' := by
  cases hstep with
  | set hbrk hsets => exact h.set hbrk hsets
  | get hbrk hkeeps => exact h.get hbrk hkeeps
  | mmap hmmap => exact h.mmap hmmap habove.2
  | munmap _ _ hmunmap => exact h.munmap hmunmap habove

end HandleStands

/-! ## The start -/

theorem HandleStands.init {s : BreakState} (h : breakRuns.init s) : HandleStands s := by
  obtain ⟨alloc, heap, hart, stale, content, hart', hinit, hbreak, hlow⟩ := h
  obtain ⟨bytes, hbytes, hinit⟩ := bind_eq_ok.mp hinit
  obtain ⟨⟨found, file⟩, hheader, hinit⟩ := bind_eq_ok.mp hinit
  obtain ⟨hdr, hhdr, hinit⟩ := bind_eq_ok.mp hinit
  obtain ⟨st, hload, hinit⟩ := bind_eq_ok.mp hinit
  obtain ⟨⟨heap₁, memory₁⟩, hstack, hinit⟩ := bind_eq_ok.mp hinit
  obtain ⟨memory₂, hheap, hinit⟩ := bind_eq_ok.mp hinit
  simp only [pure_eq_ok, Except.ok.injEq, Prod.mk.injEq] at hinit
  obtain ⟨-, -, rfl⟩ := hinit
  -- The two computations load the same segments.
  simp only [chosenBreak, hbytes, hheader, hhdr, hload, ok_bind, pure_eq_ok,
    Except.ok.injEq] at hbreak
  have horder := stackInit_inOrder (loadSegments_inOrder regionsInOrder_nil hload) hstack
  obtain ⟨slot, r, hslot, hr, hrlow, hrhigh, -⟩ := heapInit_ok horder hheap
  refine ⟨heapInit_inOrder horder hheap, slot, r, hslot, hr, ?_, hrhigh.trans hbreak⟩
  rw [hlow, hrlow, hbreak]

/-- A slot that holds another registered region than the heap breaks the law. -/
theorem not_law_of_moved {s : BreakState} (horder : RegionsInOrder s.vm.regions.pmrOps)
    {slot i : Nat} {r x : PmRegion} (hslot : s.vm.vmaHeap = some slot)
    (hx : s.vm.regions.pmrOps[slot]? = some x) (hr : s.vm.regions.pmrOps[i]? = some r)
    (hne : i ≠ slot) (hhigh : r.addrHigh = s.lastBreak) : ¬ BreakLaw s := by
  intro hlaw
  have hreturns := hlaw.returns_last none fun _ => 0
  rw [callBrk_zero hslot hx] at hreturns
  have hsame : x.addrHigh = r.addrHigh := by
    rw [hhigh]
    exact congrArg Prod.fst (Except.ok.inj hreturns)
  have hxNonempty := horder.nonempty x (List.mem_of_getElem? hx)
  have hrNonempty := horder.nonempty r (List.mem_of_getElem? hr)
  obtain ⟨hi, rfl⟩ := List.getElem?_eq_some_iff.mp hr
  obtain ⟨hs, rfl⟩ := List.getElem?_eq_some_iff.mp hx
  have hbelow := List.pairwise_iff_getElem.mp horder.below
  rcases Nat.lt_or_gt_of_ne hne with hlt | hlt
  · have := hbelow i slot hi hs hlt
    bv_omega
  · have := hbelow slot i hs hi hlt
    bv_omega

/-- Every region that is mapped below the heap makes `call_brk` lose it. -/
theorem handle_lost_of_mmap {s : BreakState} (h : HandleStands s)
    {proposalAddr len prot flags rv : Word} {rc : Option HostPointer} {heap' : HostHeap}
    {vm' : VirtualMemory}
    (hmmap : doMmap s.heap s.vm proposalAddr len prot flags rc = .ok (rv, heap', vm'))
    (hmapped : vm' ≠ s.vm) (hbelow : rv ≤ s.heapLow) :
    ¬ BreakLaw { s with heap := heap', vm := vm' } := by
  obtain ⟨slot, r, hslot, hr, hlow, hhigh⟩ := h.stands
  rcases doMmap_cases hmmap with ⟨-, hsame⟩ | ⟨-, -, hsetup⟩
  · exact absurd hsame hmapped
  · obtain ⟨base, hregister, hhandle, -⟩ := mmapSetup_ok hsetup
    obtain ⟨l₁, l₂, hl, hregions, hnonempty, hbelow₁, -⟩ :=
      registerPmRegionOperation_ok hregister h.inOrder
    have hheap := h.inOrder.nonempty r (List.mem_of_getElem? hr)
    -- The heap is one of the regions above the new one, so it is one slot further up.
    have hle : l₁.length ≤ slot := by
      by_contra hnot
      rw [hl, List.getElem?_append_left (by omega)] at hr
      have hrBelow := hbelow₁ r (List.mem_of_getElem? hr)
      simp only at hrBelow
      bv_omega
    have hmoved : vm'.regions.pmrOps[slot + 1]? = some r := by
      rw [hl, List.getElem?_append_right hle] at hr
      rw [hregions, List.getElem?_append_right (by omega), Nat.sub_add_comm hle,
        List.getElem?_cons_succ]
      exact hr
    obtain ⟨hlt, -⟩ := List.getElem?_eq_some_iff.mp hmoved
    have hslotLt : slot < vm'.regions.pmrOps.length := Nat.lt_of_succ_lt hlt
    exact not_law_of_moved (doMmap_inOrder h.inOrder hmmap) (hhandle.trans hslot)
      (List.getElem?_eq_getElem hslotLt) hmoved (by omega) hhigh

/-- Every region that is unmapped below the heap makes `call_brk` lose it, if another
region lies above the heap. -/
theorem handle_lost_of_munmap {s : BreakState} (h : HandleStands s) {addr len rv : Word}
    {heap' : HostHeap} {vm' : VirtualMemory}
    (hmunmap : doMunmap s.heap s.vm addr len = .ok (rv, heap', vm')) (hmapped : vm' ≠ s.vm)
    (hbelow : ∀ r ∈ s.vm.regions.pmrOps, r.Contains addr → r.addrHigh ≤ s.heapLow)
    (habove : ∃ r ∈ s.vm.regions.pmrOps, s.lastBreak ≤ r.addrLow) :
    ¬ BreakLaw { s with heap := heap', vm := vm' } := by
  obtain ⟨slot, r, hslot, hr, hlow, hhigh⟩ := h.stands
  rcases doMunmap_cases hmunmap with
    ⟨-, hsame, -⟩ | ⟨i, pmr, hpmr, hcontains, -, hregions, hhandle, -⟩
  · exact absurd hsame hmapped
  · have hpmrBelow := hbelow pmr (List.mem_of_getElem? hpmr) hcontains
    have hpairs := List.pairwise_iff_getElem.mp h.inOrder.below
    obtain ⟨hi, rfl⟩ := List.getElem?_eq_some_iff.mp hpmr
    obtain ⟨hs, rfl⟩ := List.getElem?_eq_some_iff.mp hr
    have hpmrNonempty := h.inOrder.nonempty _ (List.getElem_mem hi)
    have hheap := h.inOrder.nonempty _ (List.getElem_mem hs)
    have hlt : i < slot := by
      rcases Nat.lt_trichotomy i slot with hlt | rfl | hlt
      · exact hlt
      · bv_omega
      · have := hpairs slot i hs hi hlt
        bv_omega
    obtain ⟨x, hx, hxAbove⟩ := habove
    obtain ⟨j, hj, rfl⟩ := List.getElem_of_mem hx
    have hxNonempty := h.inOrder.nonempty _ (List.getElem_mem hj)
    have hjs : slot < j := by
      rcases Nat.lt_trichotomy slot j with hlt | rfl | hlt
      · exact hlt
      · bv_omega
      · have := hpairs j slot hj hs hlt
        bv_omega
    have hmoved : vm'.regions.pmrOps[slot - 1]? = some s.vm.regions.pmrOps[slot] := by
      rw [hregions, List.getElem?_eraseIdx_of_ge (by omega), Nat.sub_add_cancel (by omega)]
      exact hr
    have hslotLt : slot < vm'.regions.pmrOps.length := by
      rw [hregions, List.length_eraseIdx_of_lt hi]
      omega
    exact not_law_of_moved (doMunmap_inOrder h.inOrder hmunmap) (hhandle.trans hslot)
      (List.getElem?_eq_getElem hslotLt) hmoved (by omega) hhigh

end Hyrule
