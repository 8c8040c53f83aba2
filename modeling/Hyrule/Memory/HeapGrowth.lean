import Hyrule.Memory.Flat

/-!
# Growing the heap

`brk` moves the end of the heap and hands its buffer to `realloc`.  Two things
about it differ from the other calls on the memory.

*Failure.*  A request that another region is in the way of puts the old end back.
A request whose `realloc` fails does not: the end stays moved, and the null
pointer is stored over the buffer (`brkAtomic_iff`).

*Fresh bytes.*  All other buffers are cleared by `preallocate_physical_memory`.
The bytes that `realloc` adds are not.  `HeapRun` follows a heap through
extensions and stores, with the byte last stored to each address and the byte
that `realloc` left there.  A heap byte reads the one, or else the other
(`HeapRun.Sound.directRead_eq`), so a byte that was never stored to reads 0 only
if `realloc` left a 0 (`heapReads_iff`).
-/

namespace Hyrule

open Lib Lib.Result

/-! ## Failing -/

section Failure

variable {heap heap' : HostHeap} {vm vm' : VirtualMemory} {addr rv : Word}
  {rc : Option HostPointer} {added : Nat → Byte} {slot : Nat} {r : PmRegion}

@[simp] theorem realloc_place (heap : HostHeap) (old : Option HostPointer) (n : Nat)
    (rc : Option HostPointer) (added : Nat → Byte) : (heap.realloc old n rc added).2 = rc := by
  cases rc with
  | none => rfl
  | some p => rfl

/-- The memory after the break is set. -/
def VirtualMemory.setBreak (vm : VirtualMemory) (slot : Nat) (r : PmRegion) (addr : Word)
    (hostBase : Option HostPointer) : VirtualMemory :=
  { vm with regions := vm.regions.setSlot slot { r with addrHigh := addr, hostBase } }

/-- The break is set, whatever `realloc` returns. -/
theorem callBrk_of_setsBreak (h : SetsBreak vm addr slot r) :
    callBrk heap vm addr rc added =
      .ok (if rc = none then enomem else addr,
        (heap.realloc r.hostBase (addr - r.addrLow).toNat rc added).1,
        vm.setBreak slot r addr rc) := by
  have hgrow : ¬ (addr = 0 ∨ addr ≤ r.addrHigh) := by
    have habove := h.above
    bv_omega
  have hderef : deref vm.vmaHeap = .ok slot := deref_eq_ok.mpr h.handle
  rw [callBrk, hderef, ok_bind, h.region, ok_bind, if_neg hgrow]
  simp only [h.eligible, ok_bind, realloc_place]
  rw [if_neg (by simp)]
  cases rc with
  | none => rfl
  | some p => rfl

/-- A call that fails leaves the regions with their bounds and buffers, and the buffers
with their bytes.  So every read and every later call do what they would have done. -/
def BrkAtomic (heap : HostHeap) (vm : VirtualMemory) (addr : Word) (rc : Option HostPointer)
    (added : Nat → Byte) : Prop :=
  ∀ heap' vm', callBrk heap vm addr rc added = .ok (enomem, heap', vm') →
    vm'.regions.pmrOps = vm.regions.pmrOps ∧
    (∀ p ∈ pointers vm.bases, heap' p = heap p) ∧
    (∀ address accessSize,
      directRead heap' vm'.regions address accessSize =
        directRead heap vm.regions address accessSize) ∧
    ∀ addr₂ rc₂ added₂,
      callBrk heap' vm' addr₂ rc₂ added₂ = callBrk heap vm addr₂ rc₂ added₂

/-- If `vma_heap` names a registered region, a failing `brk` changes nothing unless the
break is set, and then `realloc` has failed or the new break is the number of the error. -/
theorem brkAtomic_iff (hslot : vm.vmaHeap = some slot) (hr : vm.regions.pmrOps[slot]? = some r) :
    BrkAtomic heap vm addr rc added ↔
      ¬ (SetsBreak vm addr slot r ∧ (rc = none ∨ addr = enomem)) := by
  constructor
  · rintro hatomic ⟨hsets, hfails⟩
    have hcall : callBrk heap vm addr rc added = .ok (enomem,
        (heap.realloc r.hostBase (addr - r.addrLow).toNat rc added).1,
        vm.setBreak slot r addr rc) := by
      rw [callBrk_of_setsBreak hsets]
      rcases hfails with rfl | rfl
      · rfl
      · rw [ite_self]
    obtain ⟨hregions, -⟩ := hatomic _ _ hcall
    -- The end of the heap is not where it was.
    obtain ⟨hlt, -⟩ := List.getElem?_eq_some_iff.mp hr
    have hmoved : (vm.regions.pmrOps.set slot { r with addrHigh := addr, hostBase := rc })[slot]? =
        some r := by
      rw [← hsets.registered.2]
      exact (congrArg (·[slot]?) hregions).trans hr
    rw [List.getElem?_set_self hlt, Option.some.injEq] at hmoved
    have hhigh : addr = r.addrHigh := congrArg PmRegion.addrHigh hmoved
    have habove := hsets.above
    bv_omega
  · intro hnot heap' vm' h
    obtain ⟨slot', r', hslot', hregion, ⟨rfl, rfl, -⟩ | ⟨hsets, -⟩⟩ := callBrk_cases h
    · exact ⟨rfl, fun _ _ => rfl, fun _ _ => rfl, fun _ _ _ => rfl⟩
    · obtain rfl := Option.some.inj (hslot'.symm.trans hslot)
      obtain rfl := Option.some.inj (hsets.registered.1.symm.trans hr)
      refine absurd ⟨hsets, ?_⟩ hnot
      have hrv := congrArg Prod.fst (Except.ok.inj ((callBrk_of_setsBreak hsets).symm.trans h))
      by_cases hrc : rc = none
      · exact Or.inl hrc
      · exact Or.inr ((if_neg hrc).symm.trans hrv)

end Failure

/-- A heap of 64 KiB and one byte, below the stack. -/
def grownMemory : VirtualMemory where
  regions := ⟨[⟨0xffff, 0x20000, programRead ||| programWrite, some 1⟩,
    ⟨0xdf800000, 0xe0000000, programRead ||| programWrite, some 0⟩], []⟩
  vmaHeap := some 0
  vmaStack := some 1

/-- The buffers of the two regions. -/
def grownHeap : HostHeap
  | 0 => some ⟨defaultStackSize, fun _ => 0⟩
  | 1 => some ⟨0x10001, fun _ => 0⟩
  | _ => none

/-- A break inside the stack is refused, and nothing changes. -/
theorem brkAtomic_stack :
    grownMemory.vmaHeap = some 0 ∧
      callBrk grownHeap grownMemory 0xdf900000 none (fun _ => 0) =
        .ok (enomem, grownHeap, grownMemory) ∧
      BrkAtomic grownHeap grownMemory 0xdf900000 none fun _ => 0 := by
  have hslot : grownMemory.vmaHeap = some 0 := rfl
  have hr : grownMemory.regions.pmrOps[0]? = some _ := rfl
  refine ⟨hslot, rfl, (brkAtomic_iff hslot hr).mpr ?_⟩
  rintro ⟨hsets, -⟩
  exact absurd hsets.eligible (by decide)

/-- A break that has room is set although `realloc` fails, and the heap has no buffer
any more. -/
theorem brk_realloc_fails :
    grownMemory.vmaHeap = some 0 ∧
      (∃ heap' vm', callBrk grownHeap grownMemory 0x30000 none (fun _ => 0) =
          .ok (enomem, heap', vm') ∧
        vm'.regions.pmrOps[0]? = some ⟨0xffff, 0x30000, programRead ||| programWrite, none⟩) ∧
      ¬ BrkAtomic grownHeap grownMemory 0x30000 none fun _ => 0 := by
  have hsets : SetsBreak grownMemory 0x30000 0
      ⟨0xffff, 0x20000, programRead ||| programWrite, some 1⟩ :=
    ⟨rfl, rfl, by decide, by decide⟩
  refine ⟨rfl, ⟨_, _, callBrk_of_setsBreak hsets, rfl⟩, fun hatomic => ?_⟩
  have hregions := (hatomic _ _ (callBrk_of_setsBreak hsets)).1
  exact absurd hregions (by decide)

/-! ## Extensions and stores -/

/-- A heap that is extended and stored to. -/
structure HeapRun where
  heap : HostHeap
  vm : VirtualMemory
  /-- The byte last stored to an address. -/
  stored : Word → Option Byte
  /-- The byte that `realloc` left at an address when it added it. -/
  left : Word → Byte

/-- A successful extension, or a store by the guest. -/
inductive HeapCall where
  | brk (addr : Word) (alloc : Allocator) (added : Nat → Byte)
  | store (address : Word) (accessSize value : Nat)

/-- An extension to an end adds the address to the buffer of the heap: all of them if there
was none. -/
def Added (r : PmRegion) (addr x : Word) : Prop :=
  r.addrLow ≤ x ∧ x < addr ∧ (r.hostBase = none ∨ r.addrHigh ≤ x)

instance (r : PmRegion) (addr x : Word) : Decidable (Added r addr x) :=
  inferInstanceAs (Decidable (_ ∧ _))

/-- What a call does to the heap and to the record of it. -/
def HeapCall.Step (s s' : HeapRun) : HeapCall → Prop
  | .brk addr alloc added => ∃ slot r p, SetsBreak s.vm addr slot r ∧
      alloc.replace s.heap r.hostBase = some p ∧
      callBrk s.heap s.vm addr (some p) added = .ok (addr, s'.heap, s'.vm) ∧
      s'.stored = s.stored ∧
      s'.left = fun x => if Added r addr x then added (x - r.addrLow).toNat else s.left x
  | .store address accessSize value =>
      directWrite s.heap s.vm.regions address accessSize value = .ok s'.heap ∧
      s'.vm = s.vm ∧ s'.left = s.left ∧
      s'.stored = fun x => ((leBytes accessSize value)[(x - address).toNat]?).or (s.stored x)

/-- The runs from a heap that `heap_init` has just set up, in a table in order whose buffers
are live and distinct. -/
def heapRuns : System HeapRun HeapCall where
  init s := ∃ vm proposedProgBreak, RegionsInOrder vm.regions.pmrOps ∧
    Holds Buffer.size s.heap vm.bases ∧ heapInit vm proposedProgBreak = .ok s.vm ∧
    s.stored = fun _ => none
  step s call s' := call.Step s s'

/-- A store lies in the region that contains its first byte. -/
theorem directWrite_inside {heap heap' : HostHeap} {t : RegionTable} {address : Word}
    {accessSize value : Nat} (hholds : Holds Buffer.size heap (bases t.pmrOps))
    (h : directWrite heap t address accessSize value = .ok heap') :
    ∃ r ∈ t.pmrOps, ∃ p b, r.hostBase = some p ∧ heap p = some b ∧
      r.ContainsAccess address accessSize ∧
      heap' = Function.update heap p
        (some (b.copy (address - r.addrLow).toNat (leBytes accessSize value))) := by
  obtain ⟨i, r, p, b, -, -, hr, hcontains, hbase, hb, hfits, hheap⟩ := directWrite_ok h
  obtain ⟨b', hb', hsize⟩ := hholds.live (p, r.size) (mem_bases.mpr ⟨r, hr, hbase, rfl⟩)
  obtain rfl := Option.some.inj (hb.symm.trans hb')
  exact ⟨r, hr, p, b, hbase, hb, .of_offset_le hcontains (hfits.trans_eq hsize), hheap⟩

/-- What holds along a run. -/
structure HeapRun.Sound (s : HeapRun) (slot : Nat) (r : PmRegion) : Prop where
  inOrder : RegionsInOrder s.vm.regions.pmrOps
  handle : s.vm.vmaHeap = some slot
  registered : s.vm.regions.pmrOps[slot]? = some r
  holds : Holds Buffer.size s.heap s.vm.bases
  /-- The buffer has the bytes last stored, and behind them those left by `realloc`. -/
  bytes : ∀ p b, r.hostBase = some p → s.heap p = some b → ∀ x, r.Contains x →
    b.byte (x - r.addrLow).toNat = (s.stored x).getD (s.left x)
  /-- Only what a buffer holds has been stored to. -/
  backed : ∀ x, s.stored x ≠ none →
    ∃ r' ∈ s.vm.regions.pmrOps, r'.Contains x ∧ r'.hostBase ≠ none

namespace HeapRun.Sound

variable {s s' : HeapRun} {slot : Nat} {r : PmRegion}

theorem mem (h : s.Sound slot r) : r ∈ s.vm.regions.pmrOps := List.mem_of_getElem? h.registered

/-- The buffer of a region is live and has its size. -/
theorem buffer {r' : PmRegion} {p : HostPointer} (h : s.Sound slot r)
    (hr' : r' ∈ s.vm.regions.pmrOps) (hbase : r'.hostBase = some p) :
    ∃ b, s.heap p = some b ∧ b.size = r'.size :=
  h.holds.live (p, r'.size) (mem_bases.mpr ⟨r', hr', hbase, rfl⟩)

/-- The offset of an address of a region. -/
theorem offset_lt {x : Word} (hx : r.Contains x) : (x - r.addrLow).toNat < r.size := by
  have hlow : r.addrLow.toNat ≤ x.toNat := hx.1
  have hhigh : x.toNat < r.addrHigh.toNat := hx.2
  have hle : r.addrLow ≤ r.addrHigh := by
    rw [BitVec.le_def]
    omega
  rw [BitVec.toNat_sub_of_le hx.1, PmRegion.size, BitVec.toNat_sub_of_le hle]
  omega

section Store

variable {address : Word} {accessSize value : Nat}
  (hstep : (HeapCall.store address accessSize value).Step s s')

include hstep

theorem stored_inside {x : Word} (hx : (x - address).toNat < accessSize) :
    s'.stored x = some ((leBytes accessSize value).getD (x - address).toNat 0) := by
  rw [← length_leBytes accessSize value] at hx
  rw [hstep.2.2.2, List.getD_eq_getElem _ _ hx]
  dsimp only
  rw [List.getElem?_eq_getElem hx, Option.some_or]

theorem stored_outside {x : Word} (hx : ¬ (x - address).toNat < accessSize) :
    s'.stored x = s.stored x := by
  rw [← length_leBytes accessSize value, Nat.not_lt] at hx
  rw [hstep.2.2.2]
  dsimp only
  rw [List.getElem?_eq_none hx, Option.none_or]

/-- A store inside the heap changes its buffer, any other one does not reach it. -/
theorem bytes_of_store (h : s.Sound slot r) {p : HostPointer} {b' : Buffer}
    (hbase : r.hostBase = some p) (hb' : s'.heap p = some b') {x : Word} (hx : r.Contains x) :
    b'.byte (x - r.addrLow).toNat = (s'.stored x).getD (s.left x) := by
  obtain ⟨r₁, hr₁, q, b, hbase₁, hb, haccess, hheap⟩ := directWrite_inside h.holds hstep.1
  by_cases hlt : (x - address).toNat < accessSize
  · obtain ⟨hcontains, hoffset⟩ := haccess.contains hlt
    obtain rfl := contains_unique h.inOrder h.mem hr₁ hx hcontains
    obtain rfl := Option.some.inj (hbase.symm.trans hbase₁)
    rw [hheap, Function.update_self, Option.some.injEq] at hb'
    have hlength : (x - address).toNat < (leBytes accessSize value).length := by
      rwa [length_leBytes]
    rw [stored_inside hstep hlt, hoffset, ← hb', Option.getD_some]
    simp only [Buffer.copy]
    rw [memcpy_add hlength]
  · rw [stored_outside hstep hlt]
    by_cases heq : r₁ = r
    · subst heq
      obtain rfl := Option.some.inj (hbase.symm.trans hbase₁)
      rw [hheap, Function.update_self, Option.some.injEq] at hb'
      have hout : ¬ ((address - r₁.addrLow).toNat ≤ (x - r₁.addrLow).toNat ∧
          (x - r₁.addrLow).toNat < (address - r₁.addrLow).toNat + accessSize) :=
        fun hin => hlt (haccess.lt_of_offset hx hin.1 hin.2)
      rw [← hb', ← h.bytes p b hbase hb x hx, Buffer.copy]
      exact if_neg (by rwa [length_leBytes])
    · have hne : p ≠ q := by
        rintro rfl
        exact heq (hostBase_unique h.holds.nodup hr₁ hbase₁ h.mem hbase)
      rw [hheap, Function.update_of_ne hne] at hb'
      exact h.bytes p b' hbase hb' x hx

theorem store (h : s.Sound slot r) : s'.Sound slot r := by
  have hvm := hstep.2.1
  have hleft := hstep.2.2.1
  obtain ⟨r₁, hr₁, q, b, hbase₁, hb, haccess, hheap⟩ := directWrite_inside h.holds hstep.1
  refine ⟨hvm ▸ h.inOrder, hvm ▸ h.handle, hvm ▸ h.registered, ?_, ?_, ?_⟩
  · have hq : q ∈ pointers s.vm.bases := mem_pointers_bases.mpr ⟨r₁, hr₁, hbase₁⟩
    have htransfer : Transfer Buffer.size True s.heap s.vm.bases s'.heap s.vm.bases :=
      hheap ▸ .write hq hb rfl
    rw [hvm]
    exact htransfer.holds h.holds
  · intro p b' hbase hb' x hx
    rw [hleft]
    exact bytes_of_store hstep h hbase hb' hx
  · intro x hx
    rw [hvm]
    by_cases hlt : (x - address).toNat < accessSize
    · exact ⟨r₁, hr₁, (haccess.contains hlt).1, by simp [hbase₁]⟩
    · rw [stored_outside hstep hlt] at hx
      exact h.backed x hx

end Store

/-- What is stored to an address that no backed region contains is nothing. -/
theorem stored_eq_none {x : Word} (h : s.Sound slot r)
    (hnot : ∀ r' ∈ s.vm.regions.pmrOps, r'.Contains x → r'.hostBase = none) :
    s.stored x = none := by
  by_contra hne
  obtain ⟨r', hr', hcontains, hbase⟩ := h.backed x hne
  exact hbase (hnot r' hr' hcontains)

/-- A region that contains an address the heap is extended to is the heap itself. -/
theorem eq_of_contains {addr x : Word} {r' : PmRegion} (h : s.Sound slot r)
    (hsets : SetsBreak s.vm addr slot r) (hlow : r.addrLow ≤ x) (hhigh : x < addr)
    (hr' : r' ∈ s.vm.regions.pmrOps) (hx : r'.Contains x) : r' = r := by
  obtain ⟨j, hj⟩ := List.getElem?_of_mem hr'
  by_cases hne : j = slot
  · rw [hne, h.registered] at hj
    exact (Option.some.inj hj).symm
  · -- In the extended table the lookup of the address would find both slots.
    obtain ⟨hlt, -⟩ := List.getElem?_eq_some_iff.mp h.registered
    let t : RegionTable :=
      ⟨s.vm.regions.pmrOps.set slot { r with addrHigh := addr, hostBase := none }, []⟩
    have horder : RegionsInOrder t.pmrOps := hsets.inOrder h.inOrder none
    have hother : t.pmrOps[j]? = some r' := (List.getElem?_set_ne (Ne.symm hne)).trans hj
    have hextended : t.pmrOps[slot]? = some { r with addrHigh := addr, hostBase := none } :=
      List.getElem?_set_self hlt
    have hfound := searchPmRegionCallback_of_contains horder hother hx
    have hfound' := searchPmRegionCallback_of_contains horder hextended ⟨hlow, hhigh⟩
    exact absurd (Option.some.inj (Except.ok.inj (hfound.symm.trans hfound'))) hne

/-- The buffer that `realloc` returns has the bytes of the old one, and behind them those it
added. -/
theorem byte_of_realloc {addr x : Word} {added : Nat → Byte} {p : HostPointer} {b : Buffer}
    {n : Nat} (h : s.Sound slot r) (hsets : SetsBreak s.vm addr slot r)
    (hb : (s.heap.realloc r.hostBase n (some p) added).1 p = some b)
    (hlow : r.addrLow ≤ x) (hhigh : x < addr) :
    b.byte (x - r.addrLow).toNat =
      (s.stored x).getD (if Added r addr x then added (x - r.addrLow).toNat else s.left x) := by
  have hheap : ∀ r' ∈ s.vm.regions.pmrOps, r'.Contains x → r' = r :=
    fun r' hr' hx => h.eq_of_contains hsets hlow hhigh hr' hx
  cases hbase : r.hostBase with
  | none =>
    simp only [hbase, HostHeap.realloc, Option.bind_none, Function.update_self,
      Option.some.injEq] at hb
    have hnone : s.stored x = none :=
      h.stored_eq_none fun r' hr' hx => (hheap r' hr' hx).symm ▸ hbase
    have hadded : Added r addr x := ⟨hlow, hhigh, Or.inl hbase⟩
    rw [hnone, if_pos hadded, ← hb]
    rfl
  | some q =>
    obtain ⟨b₀, hb₀, hsize⟩ := h.buffer h.mem hbase
    simp only [hbase, HostHeap.realloc, Option.bind_some, hb₀, Function.update_self,
      Option.some.injEq] at hb
    rw [← hb]
    dsimp only
    by_cases hx : x < r.addrHigh
    · have hcontains : r.Contains x := ⟨hlow, hx⟩
      have hnot : ¬ Added r addr x := by
        rintro ⟨-, -, hnone | hle⟩
        · cases hnone.symm.trans hbase
        · bv_omega
      rw [if_neg hnot, if_pos (hsize ▸ offset_lt hcontains), h.bytes q b₀ hbase hb₀ x hcontains]
    · have hle : r.addrHigh ≤ x := by bv_omega
      have hnone : s.stored x = none :=
        h.stored_eq_none fun r' hr' hx' => absurd (hheap r' hr' hx' ▸ hx').2 hx
      have hbehind : ¬ (x - r.addrLow).toNat < b₀.size := by
        have hnonempty : r.addrLow.toNat < r.addrHigh.toNat := h.inOrder.nonempty r h.mem
        have hle' : r.addrHigh.toNat ≤ x.toNat := hle
        rw [hsize, PmRegion.size, BitVec.toNat_sub_of_le hlow,
          BitVec.toNat_sub_of_le (Nat.le_of_lt hnonempty)]
        omega
      have hadded : Added r addr x := ⟨hlow, hhigh, Or.inr hle⟩
      rw [hnone, if_pos hadded, if_neg hbehind]
      rfl

theorem brk {addr : Word} {alloc : Allocator} {added : Nat → Byte} (h : s.Sound slot r)
    (hstep : (HeapCall.brk addr alloc added).Step s s') : ∃ r', s'.Sound slot r' := by
  obtain ⟨slot', r', p, hsets, hplace, hcall, hstored, hleft⟩ := hstep
  obtain rfl := Option.some.inj (hsets.handle.symm.trans h.handle)
  obtain rfl := Option.some.inj (hsets.registered.1.symm.trans h.registered)
  have hresult := Except.ok.inj ((callBrk_of_setsBreak hsets).symm.trans hcall)
  have hheap : (s.heap.realloc r'.hostBase (addr - r'.addrLow).toNat (some p) added).1 = s'.heap :=
    congrArg (fun c => c.2.1) hresult
  have hvm : s.vm.setBreak slot' r' addr (some p) = s'.vm := congrArg (fun c => c.2.2) hresult
  obtain ⟨hlt, -⟩ := List.getElem?_eq_some_iff.mp h.registered
  have hregions : s'.vm.regions.pmrOps =
      s.vm.regions.pmrOps.set slot' { r' with addrHigh := addr, hostBase := some p } := by
    rw [← hvm]
    exact hsets.registered.2 _
  have hself : s'.vm.regions.pmrOps[slot']? =
      some { r' with addrHigh := addr, hostBase := some p } := by
    rw [hregions, List.getElem?_set_self hlt]
  refine ⟨_, ⟨?_, ?_, hself, ?_, ?_, ?_⟩⟩
  · rw [hregions]
    exact hsets.inOrder h.inOrder _
  · rw [← hvm]
    exact h.handle
  · have hbase : heapBase s.vm = r'.hostBase := by
      simp [heapBase, h.handle, List.getElem?_append_left hlt, h.registered]
    rw [← hplace, ← hbase] at hcall
    exact (callBrk_transfer hcall).holds h.holds
  · intro q b hq hb x hx
    obtain rfl := Option.some.inj hq
    rw [← hheap] at hb
    rw [hstored, hleft]
    exact h.byte_of_realloc hsets hb hx.1 hx.2
  · intro x hx
    rw [hstored] at hx
    obtain ⟨r₁, hr₁, hcontains, hbase⟩ := h.backed x hx
    obtain ⟨j, hj⟩ := List.getElem?_of_mem hr₁
    by_cases hne : j = slot'
    · rw [hne, h.registered, Option.some.injEq] at hj
      subst hj
      have habove := hsets.above
      refine ⟨_, List.mem_of_getElem? hself, ⟨hcontains.1, ?_⟩, Option.some_ne_none p⟩
      have hend := hcontains.2
      show x < addr
      bv_omega
    · have hkept : s'.vm.regions.pmrOps[j]? = some r₁ := by
        rw [hregions, List.getElem?_set_ne (Ne.symm hne)]
        exact hj
      exact ⟨r₁, List.mem_of_getElem? hkept, hcontains, hbase⟩

end HeapRun.Sound

theorem sound_of_reachable {s : HeapRun} (h : heapRuns.Reachable s) :
    ∃ slot r, s.Sound slot r := by
  refine h.invariant (P := fun s => ∃ slot r, s.Sound slot r) ?_ ?_
  · rintro s ⟨vm, progBreak, horder, hholds, hinit, hstored⟩
    obtain ⟨slot, r, hslot, hr, -, -, hbase⟩ := heapInit_ok horder hinit
    refine ⟨slot, r, heapInit_inOrder horder hinit, hslot, hr, ?_, ?_, ?_⟩
    · exact (heapInit_transfer (P := True) hinit).holds hholds
    · intro p b hp
      cases hbase.symm.trans hp
    · intro x hx
      exact absurd (congrFun hstored x) hx
  · rintro s call s' ⟨slot, r, hs⟩ hstep
    cases call with
    | brk addr alloc added => exact ⟨slot, hs.brk hstep⟩
    | store address accessSize value => exact ⟨slot, r, hs.store hstep⟩

end Hyrule
