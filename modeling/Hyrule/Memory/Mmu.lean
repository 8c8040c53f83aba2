import Hyrule.Lib.Transition
import Hyrule.Memory.Access

/-!
# Paged accesses

`mmu_tlb.h`, `mmu_pagewalker.c`, and the accesses of `mmu.h` and `mmu.c`: a hart
below machine mode whose `satp` turns paging on looks its addresses up in a TLB,
and walks the page table where it finds nothing.

The TLB is one array for pages of 4K and of 4M.  An address has a slot for either
size, and a lookup takes the entry of the first of them that is valid.  The entry
is tagged with its page, but the lookup does not compare the tag.  So an access goes
to where the page table says if the entry it finds, if any, is that of its own page
(`paged_access_eq`).  Otherwise it goes to the page of the entry, and raises no page
fault.
-/

namespace Hyrule

open Lib Lib.Result

/-! ## Entries -/

/-- The flags of `struct sv32_pte`. -/
def pteValid (pte : Word) : Bool := pte.getLsbD 0
def pteRead (pte : Word) : Bool := pte.getLsbD 1
def pteWrite (pte : Word) : Bool := pte.getLsbD 2
def pteExecute (pte : Word) : Bool := pte.getLsbD 3

/-- `PAGE_MASK_4K` and `PAGE_MASK_4M`. -/
def pageMask4K : Word := 0xfffff000
def pageMask4M : Word := 0xffc00000

/-- `struct tlb_entry`.  The pointers to the entries of the page table are left out: nothing
reads them. -/
structure TlbEntry where
  vaTag : Word
  paTag : Word
  pageMask : Word
  entryValid : Bool
  /-- A slot of the region table. -/
  pmr : Nat

/-- A TLB, with `tlb_cap`. -/
structure Tlb where
  cap : Word
  entries : Word → TlbEntry
  powerOfTwo : ∃ k, cap.toNat = 2 ^ k

/-- `invalidate_tlb`. -/
def invalidateTlb (tlb : Tlb) : Tlb :=
  { tlb with entries := fun offset => { tlb.entries offset with entryValid := false } }

/-- `VA_TO_4K_TLB_ENTRY`, the offset of the entry. -/
def vaTo4KTlbEntry (tlb : Tlb) (va : Word) : Word := (va >>> 12) &&& (tlb.cap - 1)

/-- `VA_TO_4M_TLB_ENTRY`, the offset of the entry. -/
def vaTo4MTlbEntry (tlb : Tlb) (va : Word) : Word := (va >>> 22) &&& (tlb.cap - 1)

/-- `VA_TO_TLB_ENTRY`.  `va_tag` is not compared. -/
def vaToTlbEntry (tlb : Tlb) (va : Word) : Option TlbEntry :=
  let entry := tlb.entries (vaTo4KTlbEntry tlb va)
  let entry := if entry.entryValid then entry else tlb.entries (vaTo4MTlbEntry tlb va)
  if entry.entryValid then some entry else none

/-- No lookup leaves the array. -/
theorem tlbOffset_lt (tlb : Tlb) (va : Word) :
    vaTo4KTlbEntry tlb va < tlb.cap ∧ vaTo4MTlbEntry tlb va < tlb.cap := by
  obtain ⟨k, hk⟩ := tlb.powerOfTwo
  have hpos : 0 < tlb.cap.toNat := by
    rw [hk]
    exact Nat.two_pow_pos k
  have hlast : tlb.cap - 1 < tlb.cap := by bv_omega
  have hand : ∀ offset : Word, offset &&& (tlb.cap - 1) < tlb.cap := by
    intro offset
    have hle : (offset &&& (tlb.cap - 1)).toNat ≤ (tlb.cap - 1).toNat := by
      rw [BitVec.toNat_and]
      exact Nat.and_le_right
    bv_omega
  exact ⟨hand _, hand _⟩

/-- An entry is overwritten. -/
def Tlb.set (tlb : Tlb) (offset : Word) (entry : TlbEntry) : Tlb :=
  { tlb with entries := Function.update tlb.entries offset entry }

@[simp] theorem Tlb.set_entries (tlb : Tlb) (offset : Word) (entry : TlbEntry) :
    (tlb.set offset entry).entries = Function.update tlb.entries offset entry := rfl

@[simp] theorem vaTo4KTlbEntry_set (tlb : Tlb) (offset : Word) (entry : TlbEntry) (va : Word) :
    vaTo4KTlbEntry (tlb.set offset entry) va = vaTo4KTlbEntry tlb va := rfl

@[simp] theorem vaTo4MTlbEntry_set (tlb : Tlb) (offset : Word) (entry : TlbEntry) (va : Word) :
    vaTo4MTlbEntry (tlb.set offset entry) va = vaTo4MTlbEntry tlb va := rfl

/-! ## The page table -/

/-- The entry of a page table at a physical address. -/
def readPte (heap : HostHeap) (t : RegionTable) (address : Word) : Result Word := do
  return BitVec.ofNat 32 (← directRead heap t address 4)

/-- `walk_page_table`, with the region table of the hart: what it returns, and the TLB. -/
def walkPageTable (heap : HostHeap) (t : RegionTable) (satp va : Word) (tlb : Tlb) :
    Result (Int × Tlb) := do
  check (satp &&& 0x80000000 ≠ 0)
  let level1Base := satp <<< 12
  let level1EntryOffset := ((va >>> 22) &&& 0x3ff) * 4
  let level1Pte ← readPte heap t (level1Base + level1EntryOffset)
  if pteValid level1Pte = false then return (-1, tlb)
  else
    let level1Ppn := level1Pte >>> 10
    if pteRead level1Pte ∨ pteWrite level1Pte ∨ pteExecute level1Pte then
      let paTag := (level1Ppn <<< 12) &&& pageMask4M
      let pmr ← require (← searchPmRegionCallback t paTag)
      return (0, tlb.set (vaTo4MTlbEntry tlb va)
        ⟨va &&& pageMask4M, paTag, pageMask4M, true, pmr⟩)
    else
      let level2Base := level1Ppn <<< 12
      let level2EntryOffset := ((va >>> 12) &&& 0x3ff) * 4
      let level2Pte ← readPte heap t (level2Base + level2EntryOffset)
      if pteValid level2Pte = false then return (-2, tlb)
      else
        let level2Ppn := level2Pte >>> 10
        let paTag := (level2Ppn <<< 12) &&& pageMask4K
        let pmr ← require (← searchPmRegionCallback t paTag)
        return (0, tlb.set (vaTo4KTlbEntry tlb va)
          ⟨va &&& pageMask4K, paTag, pageMask4K, true, pmr⟩)

/-! ## Accesses -/

/-- The fields of a hart that an access uses, with the memory of its guest. -/
structure PagedHart where
  privilegeLevel : BitVec 2
  satp : Word
  itlb : Tlb
  dtlb : Tlb
  regions : RegionTable
  heap : HostHeap

/-- `PRIVILEGE_LEVEL_MACHINE`. -/
def privilegeLevelMachine : BitVec 2 := 3

/-- Paging is enabled in the current mode. -/
def PagedHart.PagingEnabled (s : PagedHart) : Prop :=
  s.privilegeLevel < privilegeLevelMachine ∧ s.satp &&& 0x80000000 ≠ 0

instance (s : PagedHart) : Decidable s.PagingEnabled := inferInstanceAs (Decidable (_ ∧ _))

/-- `EXCEPTION_INSTRUCTION_PAGE_FAULT`, `EXCEPTION_LOAD_PAGE_FAULT` and
`EXCEPTION_STORE_PAGE_FAULT`. -/
def exceptionInstructionPageFault : Nat := 0xc
def exceptionLoadPageFault : Nat := 0xd
def exceptionStorePageFault : Nat := 0xf

/-- What an access comes to. -/
inductive AccessOutcome where
  /-- The callback of a region has been called with a physical address. -/
  | performed (address : Word) (value : Nat)
  | pageFault (cause : Nat) (tvalue : Word)
deriving DecidableEq

/-- The entry of an address, after a walk if there was none. -/
def findTlbEntry (s : PagedHart) (tlb : Tlb) (va : Word) : Result (Tlb × Option TlbEntry) :=
  match vaToTlbEntry tlb va with
  | some entry => return (tlb, some entry)
  | none => do
      let (_, tlb) ← walkPageTable s.heap s.regions s.satp va tlb
      return (tlb, vaToTlbEntry tlb va)

/-- The common text of `vmread`, `vmwrite` and `mmu_instruction_read32`: the outcome, the
TLB and the memory after the access, by the callback of the region. -/
def PagedHart.access (s : PagedHart) (tlb : Tlb) (va : Word) (cause : Nat)
    (callback : PmRegion → Word → Result (Nat × HostHeap)) :
    Result (AccessOutcome × Tlb × HostHeap) :=
  if s.PagingEnabled then do
    let (tlb, entry) ← findTlbEntry s tlb va
    match entry with
    | none => return (.pageFault cause va, tlb, s.heap)
    | some entry =>
        let address := entry.paTag ||| (va &&& ~~~entry.pageMask)
        let (value, heap) ← callback (← s.regions.slot entry.pmr) address
        return (.performed address value, tlb, heap)
  else do
    match ← searchPmRegionCallback s.regions va with
    | none => throw .assertion
    | some i =>
        let (value, heap) ← callback (← s.regions.slot i) va
        return (.performed va value, tlb, heap)

/-- The callbacks, as far as an access uses them. -/
def readCallback (heap : HostHeap) (accessSize : Nat) (pmr : PmRegion) (address : Word) :
    Result (Nat × HostHeap) := do
  return (← vmaGenericRead heap pmr address accessSize, heap)

def writeCallback (heap : HostHeap) (accessSize value : Nat) (pmr : PmRegion) (address : Word) :
    Result (Nat × HostHeap) := do
  return (value, ← vmaGenericWrite heap pmr address accessSize value)

/-- `vmread` of an access size. -/
def vmread (s : PagedHart) (va : Word) (accessSize : Nat) :
    Result (AccessOutcome × PagedHart) := do
  let (outcome, dtlb, heap) ←
    s.access s.dtlb va exceptionLoadPageFault (readCallback s.heap accessSize)
  return (outcome, { s with dtlb, heap })

/-- `vmwrite` of an access size. -/
def vmwrite (s : PagedHart) (va : Word) (accessSize value : Nat) :
    Result (AccessOutcome × PagedHart) := do
  let (outcome, dtlb, heap) ←
    s.access s.dtlb va exceptionStorePageFault (writeCallback s.heap accessSize value)
  return (outcome, { s with dtlb, heap })

/-- `mmu_instruction_read32`. -/
def mmuInstructionRead32 (s : PagedHart) (va : Word) : Result (AccessOutcome × PagedHart) := do
  let (outcome, itlb, heap) ←
    s.access s.itlb va exceptionInstructionPageFault (readCallback s.heap 4)
  return (outcome, { s with itlb, heap })

/-! ## What the page table says -/

/-- A page as the page table maps it: its physical address, its size as a mask, and the slot
of the region it starts in. -/
structure Page where
  paTag : Word
  pageMask : Word
  pmr : Nat

/-- The physical address of an address in a page. -/
def Page.address (page : Page) (va : Word) : Word := page.paTag ||| (va &&& ~~~page.pageMask)

/-- The page of an address, or what `walk_page_table` returns if there is no valid entry. -/
def pageOf (heap : HostHeap) (t : RegionTable) (satp va : Word) : Result (Except Int Page) := do
  check (satp &&& 0x80000000 ≠ 0)
  let level1 ← readPte heap t ((satp <<< 12) + ((va >>> 22) &&& 0x3ff) * 4)
  if pteValid level1 = false then return .error (-1)
  else if pteRead level1 ∨ pteWrite level1 ∨ pteExecute level1 then
    let paTag := ((level1 >>> 10) <<< 12) &&& pageMask4M
    return .ok ⟨paTag, pageMask4M, ← require (← searchPmRegionCallback t paTag)⟩
  else
    let level2 ← readPte heap t (((level1 >>> 10) <<< 12) + ((va >>> 12) &&& 0x3ff) * 4)
    if pteValid level2 = false then return .error (-2)
    else
      let paTag := ((level2 >>> 10) <<< 12) &&& pageMask4K
      return .ok ⟨paTag, pageMask4K, ← require (← searchPmRegionCallback t paTag)⟩

/-- The page of an address in the page table of a hart. -/
def PagedHart.pageOf (s : PagedHart) (va : Word) : Result (Except Int Page) :=
  Hyrule.pageOf s.heap s.regions s.satp va

/-- An access without a TLB: the page table is walked every time. -/
def PagedHart.walkedAccess (s : PagedHart) (va : Word) (cause : Nat)
    (callback : PmRegion → Word → Result (Nat × HostHeap)) :
    Result (AccessOutcome × HostHeap) := do
  match ← s.pageOf va with
  | .error _ => return (.pageFault cause va, s.heap)
  | .ok page =>
      let (value, heap) ← callback (← s.regions.slot page.pmr) (page.address va)
      return (.performed (page.address va) value, heap)

/-- The entry for a page, as loaded for an address in it. -/
def Page.entry (page : Page) (va : Word) : TlbEntry :=
  ⟨va &&& page.pageMask, page.paTag, page.pageMask, true, page.pmr⟩

/-- The TLB with the page of an address loaded. -/
def Tlb.load (tlb : Tlb) (va : Word) (page : Page) : Tlb :=
  if page.pageMask = pageMask4M then tlb.set (vaTo4MTlbEntry tlb va) (page.entry va)
  else tlb.set (vaTo4KTlbEntry tlb va) (page.entry va)

/-- `walk_page_table` loads the page of the address. -/
theorem walkPageTable_eq (heap : HostHeap) (t : RegionTable) (satp va : Word) (tlb : Tlb) :
    walkPageTable heap t satp va tlb = (do
      match ← pageOf heap t satp va with
      | .error rc => return (rc, tlb)
      | .ok page => return (0, tlb.load va page)) := by
  unfold walkPageTable pageOf
  by_cases hsatp : satp &&& 0x80000000 ≠ 0
  · simp only [check, if_pos hsatp, ok_bind]
    cases readPte heap t ((satp <<< 12) + ((va >>> 22) &&& 0x3ff) * 4) with
    | error e => rfl
    | ok level1 =>
      simp only [ok_bind]
      by_cases hvalid : pteValid level1 = false
      · simp only [if_pos hvalid, pure_eq_ok, ok_bind]
      · simp only [if_neg hvalid]
        by_cases hleaf : pteRead level1 ∨ pteWrite level1 ∨ pteExecute level1
        · simp only [if_pos hleaf]
          cases searchPmRegionCallback t (((level1 >>> 10) <<< 12) &&& pageMask4M) with
          | error e => rfl
          | ok found =>
            cases found with
            | none => rfl
            | some i => rfl
        · simp only [if_neg hleaf]
          cases readPte heap t (((level1 >>> 10) <<< 12) + ((va >>> 12) &&& 0x3ff) * 4) with
          | error e => rfl
          | ok level2 =>
            simp only [ok_bind]
            by_cases hvalid₂ : pteValid level2 = false
            · simp only [if_pos hvalid₂, pure_eq_ok, ok_bind]
            · simp only [if_neg hvalid₂]
              cases searchPmRegionCallback t (((level2 >>> 10) <<< 12) &&& pageMask4K) with
              | error e => rfl
              | ok found =>
                cases found with
                | none => rfl
                | some i => rfl
  · simp only [check, if_neg hsatp, error_bind]

/-! ## Addresses of one page -/

section Pages

variable {heap : HostHeap} {t : RegionTable} {satp va va' : Word} {page : Page}

theorem mask_shiftRight (va : Word) (k : Nat) :
    (va &&& (BitVec.allOnes 32 <<< k)) >>> k = va >>> k := by
  ext i hi
  simp only [BitVec.getElem_ushiftRight, BitVec.getLsbD_and, BitVec.getLsbD_shiftLeft,
    BitVec.getLsbD_allOnes]
  by_cases hlt : k + i < 32
  · simp [hlt]
    omega
  · simp [hlt, BitVec.getLsbD_of_ge va (k + i) (by omega)]

/-- Addresses that agree under a mask agree in the bits above it. -/
theorem shiftRight_eq_of_mask {mask : Word} {k : Nat} (hmask : mask = BitVec.allOnes 32 <<< k)
    (h : va' &&& mask = va &&& mask) : va' >>> k = va >>> k := by
  rw [← mask_shiftRight va', ← mask_shiftRight va, ← hmask, h]

/-- A page has one of two sizes.  That of a large page is found at the first level. -/
theorem pageOf_cases (h : pageOf heap t satp va = .ok (.ok page)) :
    (page.pageMask = pageMask4M ∧
      ∀ va' : Word, va' >>> 22 = va >>> 22 → pageOf heap t satp va' = .ok (.ok page)) ∨
    page.pageMask = pageMask4K := by
  unfold pageOf at h
  obtain ⟨_, hsatp, h⟩ := bind_eq_ok.mp h
  obtain ⟨level1, hlevel1, h⟩ := bind_eq_ok.mp h
  split at h
  next => cases h
  next hvalid =>
    split at h
    next hleaf =>
      refine Or.inl ?_
      obtain ⟨found, hfound, h⟩ := bind_eq_ok.mp h
      obtain ⟨pmr, hpmr, h⟩ := bind_eq_ok.mp h
      cases h
      refine ⟨rfl, fun va' hshift => ?_⟩
      simp only [pageOf, hsatp, hshift, hlevel1, ok_bind, if_neg hvalid, if_pos hleaf, hfound, hpmr,
        pure_eq_ok]
    next =>
      refine Or.inr ?_
      obtain ⟨level2, -, h⟩ := bind_eq_ok.mp h
      split at h
      next => cases h
      next =>
        obtain ⟨found, -, h⟩ := bind_eq_ok.mp h
        obtain ⟨pmr, -, h⟩ := bind_eq_ok.mp h
        cases h
        rfl

/-- All addresses of a page have that page. -/
theorem pageOf_congr (h : pageOf heap t satp va = .ok (.ok page))
    (hsame : va' &&& page.pageMask = va &&& page.pageMask) :
    pageOf heap t satp va' = .ok (.ok page) := by
  rcases pageOf_cases h with ⟨hmask, hlarge⟩ | hmask
  · rw [hmask] at hsame
    exact hlarge va' (shiftRight_eq_of_mask (by decide) hsame)
  · rw [hmask] at hsame
    have hlow : va' >>> 12 = va >>> 12 := shiftRight_eq_of_mask (by decide) hsame
    have hhigh : va' >>> 22 = va >>> 22 := by
      rw [show 22 = 12 + 10 from rfl, BitVec.shiftRight_add, BitVec.shiftRight_add, hlow]
    unfold pageOf at h ⊢
    rw [hlow, hhigh]
    exact h

end Pages

/-! ## Loaded entries -/

section Loaded

variable {s : PagedHart} {tlb tlb' : Tlb} {va : Word} {page : Page}

/-- Every valid entry is that of a page of the page table. -/
def PagedHart.Loaded (s : PagedHart) (tlb : Tlb) : Prop :=
  ∀ offset, (tlb.entries offset).entryValid = true →
    ∃ va page, s.pageOf va = .ok (.ok page) ∧ tlb.entries offset = page.entry va

theorem loaded_invalidateTlb (s : PagedHart) (tlb : Tlb) : s.Loaded (invalidateTlb tlb) := by
  intro offset hvalid
  cases hvalid

theorem PagedHart.Loaded.set (h : s.Loaded tlb) (hpage : s.pageOf va = .ok (.ok page))
    (offset : Word) : s.Loaded (tlb.set offset (page.entry va)) := by
  intro other hvalid
  by_cases hother : other = offset
  · subst hother
    exact ⟨va, page, hpage, Function.update_self _ _ _⟩
  · simp only [Tlb.set, Function.update_of_ne hother] at hvalid ⊢
    exact h other hvalid

theorem PagedHart.Loaded.load (h : s.Loaded tlb) (hpage : s.pageOf va = .ok (.ok page)) :
    s.Loaded (tlb.load va page) := by
  unfold Tlb.load
  split
  next => exact h.set hpage _
  next => exact h.set hpage _

/-- A lookup finds a valid entry. -/
theorem vaToTlbEntry_some {entry : TlbEntry} (h : vaToTlbEntry tlb va = some entry) :
    ∃ offset, tlb.entries offset = entry ∧ entry.entryValid = true := by
  cases hfirst : (tlb.entries (vaTo4KTlbEntry tlb va)).entryValid with
  | true =>
    obtain rfl : tlb.entries (vaTo4KTlbEntry tlb va) = entry := by
      simpa [vaToTlbEntry, hfirst] using h
    exact ⟨_, rfl, hfirst⟩
  | false =>
    obtain ⟨hsecond, rfl⟩ : (tlb.entries (vaTo4MTlbEntry tlb va)).entryValid = true ∧
        tlb.entries (vaTo4MTlbEntry tlb va) = entry := by
      simpa [vaToTlbEntry, hfirst] using h
    exact ⟨_, rfl, hsecond⟩

/-- A lookup finds nothing if both entries of the address are invalid. -/
theorem vaToTlbEntry_none (h : vaToTlbEntry tlb va = none) :
    (tlb.entries (vaTo4KTlbEntry tlb va)).entryValid = false ∧
      (tlb.entries (vaTo4MTlbEntry tlb va)).entryValid = false := by
  cases hfirst : (tlb.entries (vaTo4KTlbEntry tlb va)).entryValid with
  | true => simp [vaToTlbEntry, hfirst] at h
  | false => exact ⟨rfl, by simpa [vaToTlbEntry, hfirst] using h⟩

/-- After a miss, the lookup finds the page that has been loaded. -/
theorem vaToTlbEntry_load (hmiss : vaToTlbEntry tlb va = none) (page : Page) :
    vaToTlbEntry (tlb.load va page) va = some (page.entry va) := by
  obtain ⟨hfirst, -⟩ := vaToTlbEntry_none hmiss
  have hvalid : (page.entry va).entryValid = true := rfl
  unfold Tlb.load
  split
  next =>
    by_cases hsame : vaTo4KTlbEntry tlb va = vaTo4MTlbEntry tlb va
    · simp [vaToTlbEntry, hsame, hvalid]
    · simp [vaToTlbEntry, Function.update_of_ne hsame, hfirst, hvalid]
  next => simp [vaToTlbEntry, hvalid]

/-- The entry that is found is that of the page of the address. -/
def OwnEntry (tlb : Tlb) (va : Word) : Prop :=
  ∀ entry, vaToTlbEntry tlb va = some entry → va &&& entry.pageMask = entry.vaTag

/-- The TLB keeps to the page table. -/
theorem PagedHart.Loaded.find {found : Option TlbEntry} (h : s.Loaded tlb)
    (hfind : findTlbEntry s tlb va = .ok (tlb', found)) : s.Loaded tlb' := by
  unfold findTlbEntry at hfind
  split at hfind
  next =>
    cases hfind
    exact h
  next =>
    rw [walkPageTable_eq] at hfind
    obtain ⟨⟨rc, tlb₁⟩, hwalk, hfind⟩ := bind_eq_ok.mp hfind
    obtain ⟨result, hpage, hwalk⟩ := bind_eq_ok.mp hwalk
    cases hfind
    cases result with
    | error rc =>
      cases hwalk
      exact h
    | ok page =>
      cases hwalk
      exact h.load hpage

/-- Where the entry found is that of the page of the address, the search comes to what the
page table says. -/
theorem findTlbEntry_eq (h : s.Loaded tlb) (hown : OwnEntry tlb va) :
    ∃ tlb', findTlbEntry s tlb va = (do
      match ← s.pageOf va with
      | .error _ => return (tlb', none)
      | .ok page => return (tlb', some (page.entry va))) := by
  unfold findTlbEntry
  cases hlookup : vaToTlbEntry tlb va with
  | some entry =>
    obtain ⟨offset, hentry, hvalid⟩ := vaToTlbEntry_some hlookup
    obtain ⟨va', page, hpage, hloaded⟩ := h offset (by rw [hentry]; exact hvalid)
    rw [hentry] at hloaded
    subst hloaded
    have hsame : va &&& page.pageMask = va' &&& page.pageMask := hown _ hlookup
    have hpage' : s.pageOf va = .ok (.ok page) := pageOf_congr hpage hsame
    have hentries : page.entry va' = page.entry va := by rw [Page.entry, Page.entry, hsame]
    exact ⟨tlb, by rw [hpage', hentries]; rfl⟩
  | none =>
    simp only [walkPageTable_eq, PagedHart.pageOf]
    cases pageOf s.heap s.regions s.satp va with
    | error e => exact ⟨tlb, rfl⟩
    | ok result =>
      cases result with
      | error rc => exact ⟨tlb, by simp only [ok_bind, pure_eq_ok, hlookup]⟩
      | ok page => exact ⟨tlb.load va page, by simp only [ok_bind, pure_eq_ok,
          vaToTlbEntry_load hlookup]⟩

/-- Such an access is one without a TLB. -/
theorem PagedHart.access_eq (hpaging : s.PagingEnabled) (h : s.Loaded tlb)
    (hown : OwnEntry tlb va) (cause : Nat)
    (callback : PmRegion → Word → Result (Nat × HostHeap)) :
    (do
      let (outcome, _, heap) ← s.access tlb va cause callback
      return (outcome, heap)) = s.walkedAccess va cause callback := by
  obtain ⟨tlb', hfind⟩ := findTlbEntry_eq h hown
  rw [PagedHart.access, if_pos hpaging, hfind, PagedHart.walkedAccess]
  cases s.pageOf va with
  | error e => rfl
  | ok result =>
    cases result with
    | error rc => rfl
    | ok page =>
      have haddress : page.address va =
          (page.entry va).paTag ||| (va &&& ~~~(page.entry va).pageMask) := rfl
      have hpmr : page.pmr = (page.entry va).pmr := rfl
      simp only [ok_bind, pure_eq_ok, haddress, hpmr]
      cases s.regions.slot (page.entry va).pmr with
      | error e => rfl
      | ok pmr =>
        simp only [ok_bind]
        cases callback pmr ((page.entry va).paTag ||| (va &&& ~~~(page.entry va).pageMask)) with
        | error e => rfl
        | ok result => rfl

end Loaded

/-! ## Runs -/

/-- An access of a guest. -/
inductive MmuAccess where
  | read (va : Word) (accessSize : Nat)
  | write (va : Word) (accessSize value : Nat)
  | fetch (va : Word)

namespace MmuAccess

/-- The address of an access. -/
def va : MmuAccess → Word
  | read va _ => va
  | write va _ _ => va
  | fetch va => va

/-- The TLB that an access uses. -/
def tlb (s : PagedHart) : MmuAccess → Tlb
  | read _ _ => s.dtlb
  | write _ _ _ => s.dtlb
  | fetch _ => s.itlb

/-- The outcome of an access, and the hart after it. -/
def run (s : PagedHart) : MmuAccess → Result (AccessOutcome × PagedHart)
  | read va accessSize => vmread s va accessSize
  | write va accessSize value => vmwrite s va accessSize value
  | fetch va => mmuInstructionRead32 s va

/-- The outcome of an access without a TLB, and the memory after it. -/
def walked (s : PagedHart) : MmuAccess → Result (AccessOutcome × HostHeap)
  | read va accessSize =>
      s.walkedAccess va exceptionLoadPageFault (readCallback s.heap accessSize)
  | write va accessSize value =>
      s.walkedAccess va exceptionStorePageFault (writeCallback s.heap accessSize value)
  | fetch va => s.walkedAccess va exceptionInstructionPageFault (readCallback s.heap 4)

/-- An access goes to the physical address that the page table has for it, and raises a page
fault if the page table has none. -/
def Translates (s : PagedHart) (a : MmuAccess) : Prop :=
  (do
    let (outcome, s') ← a.run s
    return (outcome, s'.heap)) = a.walked s

end MmuAccess

/-- The accesses since the TLBs were invalidated, as long as the page table stays the same. -/
def pagedRuns : System PagedHart MmuAccess where
  init s := s.PagingEnabled ∧ (∃ tlb, s.itlb = invalidateTlb tlb) ∧
    ∃ tlb, s.dtlb = invalidateTlb tlb
  step s a s' := (∃ outcome, a.run s = .ok (outcome, s')) ∧ s'.pageOf = s.pageOf

/-- Both TLBs keep to the page table. -/
structure PagedHart.Consistent (s : PagedHart) : Prop where
  paging : s.PagingEnabled
  itlb : s.Loaded s.itlb
  dtlb : s.Loaded s.dtlb

section Runs

variable {s s' : PagedHart} {a : MmuAccess} {outcome : AccessOutcome}

theorem PagedHart.Loaded.congr {tlb : Tlb} (h : s.Loaded tlb) (hsame : s'.pageOf = s.pageOf) :
    s'.Loaded tlb := by
  intro offset hvalid
  rw [hsame]
  exact h offset hvalid

/-- An access looks its address up if paging is enabled, and leaves the memory to the callback
of a region, if it gets to one. -/
theorem PagedHart.access_cases {tlb tlb' : Tlb} {va : Word} {cause : Nat} {heap' : HostHeap}
    {callback : PmRegion → Word → Result (Nat × HostHeap)}
    (haccess : s.access tlb va cause callback = .ok (outcome, tlb', heap')) :
    ((∃ found, findTlbEntry s tlb va = .ok (tlb', found)) ∨ tlb' = tlb) ∧
    (heap' = s.heap ∨ ∃ pmr address value, callback pmr address = .ok (value, heap')) := by
  unfold PagedHart.access at haccess
  split at haccess
  next =>
    obtain ⟨⟨tlb₁, found⟩, hfind, haccess⟩ := bind_eq_ok.mp haccess
    cases found with
    | none =>
      cases haccess
      exact ⟨Or.inl ⟨none, hfind⟩, Or.inl rfl⟩
    | some entry =>
      obtain ⟨pmr, -, haccess⟩ := bind_eq_ok.mp haccess
      obtain ⟨⟨value, heap₁⟩, hcallback, haccess⟩ := bind_eq_ok.mp haccess
      cases haccess
      exact ⟨Or.inl ⟨some entry, hfind⟩, Or.inr ⟨pmr, _, value, hcallback⟩⟩
  next =>
    obtain ⟨found, -, haccess⟩ := bind_eq_ok.mp haccess
    cases found with
    | none => cases haccess
    | some i =>
      obtain ⟨pmr, -, haccess⟩ := bind_eq_ok.mp haccess
      obtain ⟨⟨value, heap₁⟩, hcallback, haccess⟩ := bind_eq_ok.mp haccess
      cases haccess
      exact ⟨Or.inr rfl, Or.inr ⟨pmr, va, value, hcallback⟩⟩

/-- An access loads pages of the page table. -/
theorem PagedHart.Loaded.access {tlb tlb' : Tlb} {va : Word} {cause : Nat} {heap' : HostHeap}
    {callback : PmRegion → Word → Result (Nat × HostHeap)} (h : s.Loaded tlb)
    (haccess : s.access tlb va cause callback = .ok (outcome, tlb', heap')) :
    s.Loaded tlb' := by
  rcases (PagedHart.access_cases haccess).1 with ⟨found, hfind⟩ | rfl
  · exact h.find hfind
  · exact h

/-- The three accesses are their common text, with the data TLB or with the instruction TLB. -/
theorem MmuAccess.run_ok (hrun : a.run s = .ok (outcome, s')) :
    ∃ cause callback tlb' heap', s.access (a.tlb s) a.va cause callback =
        .ok (outcome, tlb', heap') ∧
      (a.tlb s = s.dtlb ∧ s' = { s with dtlb := tlb', heap := heap' } ∨
        a.tlb s = s.itlb ∧ s' = { s with itlb := tlb', heap := heap' }) := by
  cases a with
  | read va accessSize =>
    obtain ⟨⟨outcome₁, dtlb, heap⟩, haccess, hrun⟩ := bind_eq_ok.mp hrun
    cases hrun
    exact ⟨_, _, dtlb, heap, haccess, Or.inl ⟨rfl, rfl⟩⟩
  | write va accessSize value =>
    obtain ⟨⟨outcome₁, dtlb, heap⟩, haccess, hrun⟩ := bind_eq_ok.mp hrun
    cases hrun
    exact ⟨_, _, dtlb, heap, haccess, Or.inl ⟨rfl, rfl⟩⟩
  | fetch va =>
    obtain ⟨⟨outcome₁, itlb, heap⟩, haccess, hrun⟩ := bind_eq_ok.mp hrun
    cases hrun
    exact ⟨_, _, itlb, heap, haccess, Or.inr ⟨rfl, rfl⟩⟩

theorem PagedHart.Consistent.step (h : s.Consistent) (hrun : a.run s = .ok (outcome, s'))
    (hsame : s'.pageOf = s.pageOf) : s'.Consistent := by
  obtain ⟨cause, callback, tlb', heap', haccess, ⟨htlb, rfl⟩ | ⟨htlb, rfl⟩⟩ :=
    MmuAccess.run_ok hrun
  · rw [htlb] at haccess
    exact ⟨h.paging, h.itlb.congr hsame, (h.dtlb.access haccess).congr hsame⟩
  · rw [htlb] at haccess
    exact ⟨h.paging, (h.itlb.access haccess).congr hsame, h.dtlb.congr hsame⟩

theorem consistent_of_reachable (hreach : pagedRuns.Reachable s) : s.Consistent := by
  refine hreach.invariant ?_ ?_
  · rintro s ⟨hpaging, ⟨itlb, hitlb⟩, dtlb, hdtlb⟩
    refine ⟨hpaging, ?_, ?_⟩
    · rw [hitlb]
      exact loaded_invalidateTlb s itlb
    · rw [hdtlb]
      exact loaded_invalidateTlb s dtlb
  · rintro s a s' h ⟨⟨outcome, hrun⟩, hsame⟩
    exact h.step hrun hsame

/-- The three accesses return the outcome and the memory of their common text. -/
theorem outcome_heap (r : Result (AccessOutcome × Tlb × HostHeap))
    (f : Tlb → HostHeap → PagedHart) (hf : ∀ tlb heap, (f tlb heap).heap = heap) :
    (do
      let (outcome, s') ← (do
        let (outcome, tlb, heap) ← r
        return (outcome, f tlb heap))
      return (outcome, s'.heap) : Result _) = (do
      let (outcome, _, heap) ← r
      return (outcome, heap)) := by
  cases r with
  | error e => rfl
  | ok result =>
    obtain ⟨outcome, tlb, heap⟩ := result
    simp only [ok_bind, pure_eq_ok, hf]

/-- An access that finds an entry goes to the page of that entry. -/
theorem PagedHart.access_of_found {tlb tlb' : Tlb} {va : Word} {cause : Nat} {heap' : HostHeap}
    {callback : PmRegion → Word → Result (Nat × HostHeap)} {entry : TlbEntry}
    (hpaging : s.PagingEnabled) (hfound : vaToTlbEntry tlb va = some entry)
    (haccess : s.access tlb va cause callback = .ok (outcome, tlb', heap')) :
    ∃ value, outcome = .performed (entry.paTag ||| (va &&& ~~~entry.pageMask)) value := by
  have hfind : findTlbEntry s tlb va = .ok (tlb, some entry) := by
    rw [findTlbEntry, hfound]
    rfl
  rw [PagedHart.access, if_pos hpaging, hfind, ok_bind] at haccess
  obtain ⟨pmr, -, haccess⟩ := bind_eq_ok.mp haccess
  obtain ⟨⟨value, heap₁⟩, -, haccess⟩ := bind_eq_ok.mp haccess
  cases haccess
  exact ⟨value, rfl⟩

theorem MmuAccess.run_of_found {entry : TlbEntry} (hpaging : s.PagingEnabled)
    (hfound : vaToTlbEntry (a.tlb s) a.va = some entry) (hrun : a.run s = .ok (outcome, s')) :
    ∃ value, outcome = .performed (entry.paTag ||| (a.va &&& ~~~entry.pageMask)) value := by
  obtain ⟨cause, callback, tlb', heap', haccess, -⟩ := MmuAccess.run_ok hrun
  exact PagedHart.access_of_found hpaging hfound haccess

/-- In every state that accesses reach while the page table stays the same, an access that
finds no entry, or that of its own page, is one without a TLB.  An access that finds the
entry of another page goes to that page. -/
theorem paged_access_eq (hreach : pagedRuns.Reachable s) (a : MmuAccess) :
    (OwnEntry (a.tlb s) a.va → a.Translates s) ∧
    ∀ entry outcome s', vaToTlbEntry (a.tlb s) a.va = some entry →
      a.run s = .ok (outcome, s') →
      ∃ value, outcome = .performed (entry.paTag ||| (a.va &&& ~~~entry.pageMask)) value := by
  have hs := consistent_of_reachable hreach
  refine ⟨fun hown => ?_, fun entry outcome s' => MmuAccess.run_of_found hs.paging⟩
  cases a with
  | read va accessSize =>
    refine (outcome_heap _ (fun dtlb heap => { s with dtlb, heap }) fun _ _ => rfl).trans ?_
    exact PagedHart.access_eq hs.paging hs.dtlb hown _ _
  | write va accessSize value =>
    refine (outcome_heap _ (fun dtlb heap => { s with dtlb, heap }) fun _ _ => rfl).trans ?_
    exact PagedHart.access_eq hs.paging hs.dtlb hown _ _
  | fetch va =>
    refine (outcome_heap _ (fun itlb heap => { s with itlb, heap }) fun _ _ => rfl).trans ?_
    exact PagedHart.access_eq hs.paging hs.itlb hown _ _

/-- A read is a step of a run: it leaves the page table as it is. -/
theorem pagedRuns_read {va : Word} {accessSize : Nat}
    (hrun : vmread s va accessSize = .ok (outcome, s')) :
    pagedRuns.step s (.read va accessSize) s' := by
  refine ⟨⟨outcome, hrun⟩, ?_⟩
  obtain ⟨⟨outcome₁, dtlb, heap⟩, haccess, hrun⟩ := bind_eq_ok.mp hrun
  cases hrun
  obtain rfl : heap = s.heap := by
    rcases (PagedHart.access_cases haccess).2 with hheap | ⟨pmr, address, value, hread⟩
    · exact hheap
    · obtain ⟨v, -, hread⟩ := bind_eq_ok.mp hread
      cases hread
      rfl
  rfl

end Runs

/-! ## Two pages in one slot -/

/-- A page table that maps `0x3000` to itself and `0x13000` to `0x4000`, with a byte in
either page. -/
def twoPages (i : Nat) : Byte :=
  match i with
  | 0 => 0x01
  | 1 => 0x08
  | 0x100c => 0x0f
  | 0x100d => 0x0c
  | 0x104c => 0x0f
  | 0x104d => 0x10
  | 0x2000 => 0xaa
  | 0x3000 => 0xbb
  | _ => 0

/-- A TLB of 16 entries. -/
def emptyTlb : Tlb := invalidateTlb ⟨16, fun _ => ⟨0, 0, 0, false, 0⟩, ⟨4, rfl⟩⟩

/-- A hart in supervisor mode with this page table. -/
def twoPagesHart : PagedHart where
  privilegeLevel := 1
  satp := 0x80000001
  itlb := emptyTlb
  dtlb := emptyTlb
  regions := ⟨[⟨0x1000, 0x6000, programRead ||| programWrite, some 0⟩], []⟩
  heap := fun p => if p = 0 then some ⟨0x5000, twoPages⟩ else none

theorem twoPagesHart_reachable : pagedRuns.Reachable twoPagesHart :=
  .init ⟨⟨by decide, by decide⟩, ⟨_, rfl⟩, _, rfl⟩

/-- A second read in the same page. -/
theorem paged_access_eq_second :
    ∃ s, pagedRuns.Reachable s ∧ vaToTlbEntry s.dtlb 0x3004 ≠ none ∧
      (MmuAccess.read 0x3004 4).Translates s := by
  have hrun : (do
      let (outcome, s) ← vmread twoPagesHart 0x3000 1
      let entry ← deref (vaToTlbEntry s.dtlb 0x3004)
      return (outcome, entry.vaTag, entry.pageMask)) =
      .ok (.performed 0x3000 0xaa, 0x3000, 0xfffff000) := by
    decide +kernel
  obtain ⟨⟨outcome, s⟩, hread, hrun⟩ := bind_eq_ok.mp hrun
  obtain ⟨entry, hentry, hrun⟩ := bind_eq_ok.mp hrun
  rw [deref_eq_ok] at hentry
  simp only [pure_eq_ok, Except.ok.injEq, Prod.mk.injEq] at hrun
  obtain ⟨-, htag, hmask⟩ := hrun
  have hreach : pagedRuns.Reachable s := twoPagesHart_reachable.step (pagedRuns_read hread)
  refine ⟨s, hreach, by rw [hentry]; exact Option.some_ne_none entry, ?_⟩
  refine (paged_access_eq hreach (.read 0x3004 4)).1 fun entry' hentry' => ?_
  obtain rfl := Option.some.inj (hentry.symm.trans hentry')
  rw [htag, hmask]
  decide

theorem not_translates {s s' : PagedHart} {a : MmuAccess} {outcome outcome' : AccessOutcome}
    {heap' : HostHeap} (hrun : a.run s = .ok (outcome, s'))
    (hwalked : a.walked s = .ok (outcome', heap')) (hne : outcome ≠ outcome') :
    ¬ a.Translates s := by
  rw [MmuAccess.Translates, hrun, hwalked]
  intro heq
  exact hne (congrArg Prod.fst (Except.ok.inj heq))

/-- After a read of `0x3000`, a read of `0x13000` goes to the first page, and one of
`0x23000`, which is not mapped, raises no page fault. -/
theorem read_finds_other_page :
    ∃ s, pagedRuns.Reachable s ∧
      (∃ heap', (MmuAccess.read 0x13000 1).walked s = .ok (.performed 0x4000 0xbb, heap')) ∧
      (∃ s', (MmuAccess.read 0x13000 1).run s = .ok (.performed 0x3000 0xaa, s')) ∧
      (∃ heap', (MmuAccess.read 0x23000 1).walked s = .ok (.pageFault 0xd 0x23000, heap')) ∧
      (∃ s', (MmuAccess.read 0x23000 1).run s = .ok (.performed 0x3000 0xaa, s')) ∧
      ¬ (MmuAccess.read 0x13000 1).Translates s ∧ ¬ (MmuAccess.read 0x23000 1).Translates s := by
  have hrun : (do
      let (_, s) ← vmread twoPagesHart 0x3000 1
      let (mapped, _) ← (MmuAccess.read 0x13000 1).walked s
      let (read, _) ← (MmuAccess.read 0x13000 1).run s
      let (fault, _) ← (MmuAccess.read 0x23000 1).walked s
      let (read', _) ← (MmuAccess.read 0x23000 1).run s
      return [mapped, read, fault, read']) =
      .ok [.performed 0x4000 0xbb, .performed 0x3000 0xaa, .pageFault 0xd 0x23000,
        .performed 0x3000 0xaa] := by
    decide +kernel
  obtain ⟨⟨outcome, s⟩, hread, hrun⟩ := bind_eq_ok.mp hrun
  obtain ⟨⟨mapped, heap₁⟩, hmapped, hrun⟩ := bind_eq_ok.mp hrun
  obtain ⟨⟨first, s₁⟩, hfirst, hrun⟩ := bind_eq_ok.mp hrun
  obtain ⟨⟨fault, heap₂⟩, hfault, hrun⟩ := bind_eq_ok.mp hrun
  obtain ⟨⟨second, s₂⟩, hsecond, hrun⟩ := bind_eq_ok.mp hrun
  simp only [pure_eq_ok, Except.ok.injEq, List.cons.injEq, and_true] at hrun
  obtain ⟨rfl, rfl, rfl, rfl⟩ := hrun
  refine ⟨s, twoPagesHart_reachable.step (pagedRuns_read hread), ⟨_, hmapped⟩, ⟨_, hfirst⟩,
    ⟨_, hfault⟩, ⟨_, hsecond⟩, ?_, ?_⟩
  · exact not_translates hfirst hmapped (by decide)
  · exact not_translates hsecond hfault (by decide)

end Hyrule
