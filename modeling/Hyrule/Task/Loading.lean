import Hyrule.Memory.Access
import Hyrule.Task.Segments
import Mathlib.Data.List.Pairwise

/-!
# The image of a program

What the guest reads right after `program_init`.  A file has a table of program
headers, and a `PT_LOAD` header of it says which bytes of the file are at which
addresses.  The loader follows it under three conditions that it does not check.
A segment must not have more bytes in the file than in memory, since these are
read to a buffer of its size in memory.  An offset must be one that `lseek` takes.
A buffer must not be a null pointer, which `elf_read` refuses only if it has
something to read.

`programInit_image_iff` says that a program that is not stopped by an assertion is
loaded as its table says if these conditions are met, and only then.
-/

namespace Hyrule

open Lib Lib.Result

/-! ## The table of the file -/

/-- The place of a program header in the file. -/
def ElfHeader.place (hdr : ElfHeader) (index : Nat) : Nat :=
  hdr.phoff.toNat + index * hdr.phentsize

/-- The program header at a place. -/
def headerAt (content : List Byte) (place : Nat) : ElfProgramHeader :=
  .ofBytes ((content.drop place).take elfProgramHeaderSize)

/-- A `PT_LOAD` header of the file, with its index. -/
structure LoadHeader (content : List Byte) (index : Nat) (progHdr : ElfProgramHeader) : Prop where
  index_lt : index < (programHeader content).phnum
  inside : (programHeader content).place index + elfProgramHeaderSize ≤ content.length
  header : progHdr = headerAt content ((programHeader content).place index)
  type : progHdr.type = programTypeLoad

/-- The addresses of a segment. -/
def ElfProgramHeader.Holds (progHdr : ElfProgramHeader) (address : Word) : Prop :=
  progHdr.vaddr.toNat ≤ address.toNat ∧
    address.toNat < progHdr.vaddr.toNat + progHdr.memsz.toNat

/-- The memory of a program holds what its file says. -/
structure Image (content : List Byte) (heap : HostHeap) (memory : VirtualMemory) : Prop where
  data : ∀ index progHdr, LoadHeader content index progHdr → ∀ i < progHdr.filesz.toNat,
    ∃ b, content[progHdr.offset.toNat + i]? = some b ∧
      directRead heap memory.regions (progHdr.vaddr + BitVec.ofNat 32 i) 1 = .ok b.toNat
  zero : ∀ index progHdr, LoadHeader content index progHdr →
    ∀ i, progHdr.filesz.toNat ≤ i → i < progHdr.memsz.toNat →
      directRead heap memory.regions (progHdr.vaddr + BitVec.ofNat 32 i) 1 = .ok 0
  covered : ∀ address, (∃ r ∈ memory.regions.pmrOps, r.Contains address) ↔
    (∃ index progHdr, LoadHeader content index progHdr ∧ progHdr.Holds address) ∨
      (stackRegion none).Contains address ∨ (heapRegionAt (initialBreak content)).Contains address
  /-- The regions are in the array that the lookups search. -/
  slots : memory.regions.nrPmrOps ≤ maxVmaNr

/-- What the loader relies on. -/
structure Loadable (alloc : Allocator) (heap : HostHeap) (memory : VirtualMemory)
    (content : List Byte) : Prop where
  /-- The `PT_LOAD` headers are where `lseek` takes an offset. -/
  placed : ∀ index progHdr, LoadHeader content index progHdr →
    (programHeader content).place index < 2 ^ 31
  /-- So are those that are loaded: none is read where the file happens to stand. -/
  sought : ∀ x ∈ programHeaders content, (programHeader content).place x.1 < 2 ^ 31
  sizes : ∀ x ∈ programHeaders content, x.2.filesz ≤ x.2.memsz
  offsets : ∀ x ∈ programHeaders content, x.2.filesz = 0 ∨ x.2.offset.toNat < 2 ^ 31
  slots : (programHeaders content).length + 2 ≤ maxVmaNr
  /-- A segment without bytes in the file gets a buffer. -/
  buffers : EachRound (loadSegment alloc (programHeader content))
    (fun st index => (headerRead (programHeader content) st.file index).type = programTypeLoad →
      (headerRead (programHeader content) st.file index).filesz = 0 →
        alloc.place st.heap ≠ none)
    (List.range (programHeader content).phnum) ⟨⟨content, elfHeaderSize⟩, heap, memory, 0⟩

/-! ## The headers that are loaded -/

@[simp] theorem HostFile.content_seek (file : HostFile) (offset : Int) :
    (file.seek offset).content = file.content := by
  unfold HostFile.seek
  split
  next => rfl
  next => rfl

@[simp] theorem HostFile.content_toHeader (file : HostFile) (hdr : ElfHeader) (index : Nat) :
    (file.toHeader hdr index).content = file.content :=
  file.content_seek _

@[simp] theorem HostFile.content_behindHeader (file : HostFile) (hdr : ElfHeader) (index : Nat) :
    (file.behindHeader hdr index).content = file.content :=
  file.content_seek _

@[simp] theorem HostFile.content_behindSegment (file : HostFile) (progHdr : ElfProgramHeader) :
    (file.behindSegment progHdr).content = file.content :=
  file.content_seek _

/-- The file is at the place of a header that can be sought. -/
theorem HostFile.position_toHeader {hdr : ElfHeader} {index : Nat} (file : HostFile)
    (hplace : hdr.place index < 2 ^ 31) :
    (file.toHeader hdr index).position = hdr.place index := by
  unfold ElfHeader.place at *
  have hoffset : (hdr.phoff + BitVec.ofNat 32 (index * hdr.phentsize)).toInt =
      ((hdr.phoff.toNat + index * hdr.phentsize : Nat) : Int) := by
    generalize index * hdr.phentsize = n at *
    rw [BitVec.toInt_eq_toNat_cond, BitVec.toNat_add, BitVec.toNat_ofNat]
    omega
  rw [HostFile.toHeader, hoffset, HostFile.seek, if_pos (Int.natCast_nonneg _)]
  rfl

theorem headerRead_of_place {hdr : ElfHeader} {index : Nat} (file : HostFile)
    (hplace : hdr.place index < 2 ^ 31) :
    headerRead hdr file index = headerAt file.content (hdr.place index) := by
  rw [headerRead, file.position_toHeader hplace, HostFile.content_toHeader, headerAt]

/-- Which headers are loaded, of those that can be sought. -/
theorem mem_loadedHeaders {hdr : ElfHeader} {index : Nat} {progHdr : ElfProgramHeader}
    (hplace : hdr.place index < 2 ^ 31) {indices : List Nat} :
    ∀ {file : HostFile}, (index, progHdr) ∈ loadedHeaders hdr file indices ↔
      index ∈ indices ∧ progHdr = headerAt file.content (hdr.place index) ∧
        progHdr.type = programTypeLoad := by
  induction indices with
  | nil =>
    intro file
    simp [loadedHeaders]
  | cons i indices ih =>
    intro file
    rw [loadedHeaders]
    split
    next htype =>
      rw [ih, HostFile.content_behindHeader, List.mem_cons]
      constructor
      · rintro ⟨hmem, hrest⟩
        exact ⟨Or.inr hmem, hrest⟩
      · rintro ⟨rfl | hmem, hheader, hload⟩
        · rw [headerRead_of_place file hplace, ← hheader] at htype
          exact absurd hload htype
        · exact ⟨hmem, hheader, hload⟩
    next htype =>
      rw [List.mem_cons, ih, HostFile.content_behindSegment, HostFile.content_behindHeader,
        List.mem_cons]
      constructor
      · rintro (heq | ⟨hmem, hrest⟩)
        · obtain ⟨rfl, rfl⟩ := Prod.mk.inj heq
          exact ⟨Or.inl rfl, headerRead_of_place file hplace, not_not.mp htype⟩
        · exact ⟨Or.inr hmem, hrest⟩
      · rintro ⟨rfl | hmem, hheader, hload⟩
        · exact Or.inl (by rw [hheader, headerRead_of_place file hplace])
        · exact Or.inr ⟨hmem, hheader, hload⟩

/-- The header of a round is one of those that are loaded, if it is a `PT_LOAD` header. -/
theorem mem_loadedHeaders_of_round {alloc : Allocator} {hdr : ElfHeader} {before after : List Nat}
    {index : Nat} {st st' : Loading} (h : before.foldlM (loadSegment alloc hdr) st = .ok st')
    (htype : (headerRead hdr st'.file index).type = programTypeLoad) :
    (index, headerRead hdr st'.file index) ∈
      loadedHeaders hdr st.file (before ++ index :: after) := by
  induction before generalizing st with
  | nil =>
    obtain rfl : st = st' := by simpa using h
    rw [List.nil_append, loadedHeaders, if_neg (not_not.mpr htype)]
    exact List.mem_cons_self
  | cons i before ih =>
    rw [List.foldlM_cons] at h
    obtain ⟨st₁, hround, h⟩ := bind_eq_ok.mp h
    rw [List.cons_append, loadedHeaders]
    obtain ⟨-, ⟨hskip, rfl⟩ | ⟨hload, hloaded⟩⟩ := loadSegment_cases hround
    · rw [if_pos hskip]
      exact ih h
    · rw [if_neg (not_not.mpr hload)]
      have hmem := ih h
      rw [hloaded.file] at hmem
      exact List.mem_cons_of_mem _ hmem

/-- The header of every index was read in full. -/
theorem loadSegments_read {alloc : Allocator} {hdr : ElfHeader} {indices : List Nat}
    {st st' : Loading} (h : indices.foldlM (loadSegment alloc hdr) st = .ok st') :
    ∀ index ∈ indices, ∃ file, file.content = st.file.content ∧ HeaderRead hdr file index := by
  induction indices generalizing st with
  | nil => simp
  | cons i indices ih =>
    rw [List.foldlM_cons] at h
    obtain ⟨st₁, hround, h⟩ := bind_eq_ok.mp h
    obtain ⟨hread, hcases⟩ := loadSegment_cases hround
    have hcontent : st₁.file.content = st.file.content := by
      rcases hcases with ⟨-, rfl⟩ | ⟨-, hloaded⟩
      · simp
      · rw [hloaded.file]
        simp
    intro index hindex
    rcases List.mem_cons.mp hindex with rfl | hindex
    · exact ⟨st.file, rfl, hread⟩
    · obtain ⟨file, hfile, hread⟩ := ih h index hindex
      exact ⟨file, hfile.trans hcontent, hread⟩

/-! ## The regions that are registered -/

/-- A region without its buffer. -/
def PmRegion.bare (r : PmRegion) : PmRegion := { r with hostBase := none }

@[simp] theorem PmRegion.bare_contains (r : PmRegion) (address : Word) :
    r.bare.Contains address ↔ r.Contains address := Iff.rfl

theorem registerPmRegionOperation_bare {t t' : RegionTable} {pmr : PmRegion}
    (h : registerPmRegionOperation t pmr = .ok t') :
    (t'.pmrOps.map PmRegion.bare).Perm (pmr.bare :: t.pmrOps.map PmRegion.bare) :=
  (registerPmRegionOperation_perm h).map PmRegion.bare

/-- The loop registers the regions of the headers it loads. -/
theorem loadSegments_regions {alloc : Allocator} {hdr : ElfHeader} {indices : List Nat}
    {st st' : Loading} (h : indices.foldlM (loadSegment alloc hdr) st = .ok st') :
    (st'.memory.regions.pmrOps.map PmRegion.bare).Perm
      ((loadedHeaders hdr st.file indices).map (fun x => x.2.region none) ++
        st.memory.regions.pmrOps.map PmRegion.bare) := by
  -- What is registered and what is still to come stays the same.
  refine loadSegments_induct (fun headers s =>
    (headers.map (fun x => x.2.region none) ++ s.memory.regions.pmrOps.map PmRegion.bare).Perm
      ((loadedHeaders hdr st.file indices).map (fun x => x.2.region none) ++
        st.memory.regions.pmrOps.map PmRegion.bare)) ?_ ?_ h (.refl _)
  · intro headers s file hs
    exact hs
  · intro headers index progHdr s s' hs hloaded
    have hregister := registerPmRegionOperation_bare hloaded.registered
    exact ((hregister.append_left _).trans List.perm_middle).trans hs

/-- Every region of a round is still there after the loop. -/
theorem loadSegments_subset {alloc : Allocator} {hdr : ElfHeader} {indices : List Nat}
    {st st' : Loading} (h : indices.foldlM (loadSegment alloc hdr) st = .ok st') :
    st.memory.regions.pmrOps ⊆ st'.memory.regions.pmrOps := by
  refine loadSegments_induct (fun _ s =>
    st.memory.regions.pmrOps ⊆ s.memory.regions.pmrOps) ?_ ?_ h (List.Subset.refl _)
  · intro headers s file hs
    exact hs
  · intro headers index progHdr s s' hs hloaded r hr
    exact (registerPmRegionOperation_perm hloaded.registered).mem_iff.mpr
      (List.mem_cons_of_mem _ (hs hr))

/-- A segment that is loaded fits its buffer, unless its size in the file is read as `-1`. -/
theorem loadSegments_sizes {alloc : Allocator} {hdr : ElfHeader} {indices : List Nat}
    {st st' : Loading} (h : indices.foldlM (loadSegment alloc hdr) st = .ok st') :
    ∀ x ∈ loadedHeaders hdr st.file indices,
      x.2.filesz = 0xffffffff ∨ x.2.filesz ≤ x.2.memsz := by
  have hall : ∀ x ∈ loadedHeaders hdr st.file indices, x ∈ ([] : List (Nat × ElfProgramHeader)) ∨
      (x.2.filesz = 0xffffffff ∨ x.2.filesz ≤ x.2.memsz) := by
    refine loadSegments_induct (fun headers _ => ∀ x ∈ loadedHeaders hdr st.file indices,
      x ∈ headers ∨ (x.2.filesz = 0xffffffff ∨ x.2.filesz ≤ x.2.memsz)) ?_ ?_ h
      (fun x hx => Or.inl hx)
    · intro headers s file hs
      exact hs
    · intro headers index progHdr s s' hs hloaded x hx
      rcases hs x hx with hx | hx
      · rcases List.mem_cons.mp hx with rfl | hx
        · right
          rcases hloaded.size with hsize | ⟨hpos, -, hnull, hroom⟩
          · exact Or.inl (BitVec.eq_of_toInt_eq hsize)
          · right
            by_cases hplace : alloc.place s.heap = none
            · have hzero : progHdr.filesz = 0 := BitVec.eq_of_toInt_eq (hnull hplace)
              rw [hzero]
              exact Nat.zero_le _
            · have hle := hroom hplace
              have htoInt := BitVec.toInt_eq_toNat_cond progHdr.filesz
              bv_omega
        · exact Or.inl hx
      · exact Or.inr hx
  intro x hx
  rcases hall x hx with hx | hx
  · cases hx
  · exact hx

/-! ## The buffers that are filled -/

/-- The byte of a segment at an offset. -/
def segmentByte (content : List Byte) (progHdr : ElfProgramHeader) (i : Nat) : Byte :=
  if i < progHdr.filesz.toNat then content.getD (progHdr.offset.toNat + i) 0 else 0

/-- A region has the bytes of a segment in its buffer. -/
structure SegmentHeld (content : List Byte) (progHdr : ElfProgramHeader) (heap : HostHeap)
    (pmrOps : List PmRegion) (p : HostPointer) : Prop where
  mem : progHdr.region (some p) ∈ pmrOps
  buffer : ∃ b, heap p = some b ∧ b.size = progHdr.memsz.toNat ∧
    ∀ i, b.byte i = segmentByte content progHdr i
  inside : progHdr.filesz = 0 ∨ progHdr.offset.toNat + progHdr.filesz.toNat ≤ content.length

section Held

variable {alloc : Allocator} {hdr : ElfHeader} {content : List Byte} {progHdr : ElfProgramHeader}
  {p : HostPointer}

/-- The bytes of a segment go to a new buffer, before zeros. -/
theorem fillBuffer_new {heap heap' : HostHeap} {n : Nat} {bytes : List Byte}
    (h : fillBuffer (heap.preallocatePhysicalMemory n (some p)).1 (some p) bytes = .ok heap') :
    heap' = Function.update heap p (some ⟨n, fun i => bytes.getD i 0⟩) := by
  have hcopy : memcpy (fun _ => 0) 0 (fun i => bytes.getD i 0) bytes.length =
      fun i => bytes.getD i 0 := by
    funext i
    unfold memcpy
    split
    next => rfl
    next hi => rw [List.getD_eq_default _ _ (by omega)]
  simp only [fillBuffer, HostHeap.preallocatePhysicalMemory, HostHeap.store,
    Function.update_self, hcopy] at h
  split at h
  next =>
    rw [pure_eq_ok, Except.ok.injEq] at h
    rw [← h, Function.update_idem]
  next => cases h

/-- A buffer that is live is not the one of the next segment. -/
theorem SegmentLoaded.heap_of_live {st st' : Loading} {b : Buffer}
    (h : SegmentLoaded alloc st st' progHdr) (hb : st.heap p = some b) : st'.heap p = some b := by
  have hfill := h.heap
  cases hplace : alloc.place st.heap with
  | none =>
    rw [hplace] at hfill
    have hheap : st.heap = st'.heap := Except.ok.inj hfill
    rw [← hheap, hb]
  | some q =>
    rw [hplace] at hfill
    have hne : p ≠ q := by
      rintro rfl
      rw [alloc.free _ _ hplace] at hb
      cases hb
    rw [fillBuffer_new hfill, Function.update_of_ne hne, hb]

/-- The next segments leave a segment as it is. -/
theorem SegmentHeld.loadSegments {indices : List Nat} {st st' : Loading}
    (h : indices.foldlM (loadSegment alloc hdr) st = .ok st')
    (hheld : SegmentHeld content progHdr st.heap st.memory.regions.pmrOps p) :
    SegmentHeld content progHdr st'.heap st'.memory.regions.pmrOps p := by
  refine loadSegments_induct (fun _ s =>
    SegmentHeld content progHdr s.heap s.memory.regions.pmrOps p) ?_ ?_ h hheld
  · intro headers s file hs
    exact hs
  · rintro headers index next s s' ⟨hmem, ⟨b, hb, hbuffer⟩, hinside⟩ hloaded
    refine ⟨?_, ⟨b, hloaded.heap_of_live hb, hbuffer⟩, hinside⟩
    exact (registerPmRegionOperation_perm hloaded.registered).mem_iff.mpr
      (List.mem_cons_of_mem _ hmem)

theorem toInt_toNat_of_nonneg {w : Word} (h : 0 ≤ w.toInt) : w.toInt.toNat = w.toNat := by
  have hw := BitVec.toInt_eq_toNat_cond w
  have hlt := w.isLt
  omega

/-- What a segment is read from. -/
theorem segmentBytes_eq {file : HostFile} (hoffset : progHdr.offset.toNat < 2 ^ 31)
    (hsize : 0 ≤ progHdr.filesz.toInt) :
    segmentBytes file progHdr =
      (file.content.drop progHdr.offset.toNat).take progHdr.filesz.toNat := by
  have hnonneg : 0 ≤ progHdr.offset.toInt := by
    have hcond := BitVec.toInt_eq_toNat_cond progHdr.offset
    omega
  rw [segmentBytes, HostFile.content_seek, HostFile.seek, if_pos hnonneg,
    toInt_toNat_of_nonneg hnonneg, toInt_toNat_of_nonneg hsize]

theorem segmentBytes_getD {file : HostFile}
    (hoffset : progHdr.filesz = 0 ∨ progHdr.offset.toNat < 2 ^ 31)
    (hsize : 0 ≤ progHdr.filesz.toInt) (i : Nat) :
    (segmentBytes file progHdr).getD i 0 = segmentByte file.content progHdr i := by
  rw [segmentByte]
  split
  next hi =>
    have hseek : progHdr.offset.toNat < 2 ^ 31 := hoffset.resolve_left fun hzero => by
      rw [hzero] at hi
      exact Nat.not_lt_zero i hi
    rw [segmentBytes_eq hseek hsize]
    simp only [List.getD_eq_getElem?_getD, List.getElem?_take_of_lt hi, List.getElem?_drop]
  next hi =>
    refine List.getD_eq_default _ _ (Nat.le_trans (List.length_take_le _ _) ?_)
    rw [toInt_toNat_of_nonneg hsize]
    omega

/-- A segment is in its buffer after its round. -/
theorem SegmentLoaded.held {st st' : Loading} (h : SegmentLoaded alloc st st' progHdr)
    (hfilesz : progHdr.filesz ≠ 0xffffffff)
    (hoffset : progHdr.filesz = 0 ∨ progHdr.offset.toNat < 2 ^ 31)
    (hbuffer : progHdr.filesz = 0 → alloc.place st.heap ≠ none) :
    ∃ p, SegmentHeld st.file.content progHdr st'.heap st'.memory.regions.pmrOps p := by
  obtain ⟨hpos, hlength, hnull, -⟩ := h.size.resolve_left fun hsize =>
    hfilesz (BitVec.eq_of_toInt_eq hsize)
  rw [toInt_toNat_of_nonneg hpos] at hlength
  have hplace : alloc.place st.heap ≠ none := by
    intro hnone
    exact hbuffer (BitVec.eq_of_toInt_eq (hnull hnone)) hnone
  obtain ⟨q, hq⟩ := Option.ne_none_iff_exists'.mp hplace
  have hregistered := h.registered
  have hfill := h.heap
  rw [hq] at hregistered hfill
  refine ⟨q, (registerPmRegionOperation_perm hregistered).mem_iff.mpr List.mem_cons_self,
    ⟨_, by rw [fillBuffer_new hfill, Function.update_self], rfl,
      segmentBytes_getD hoffset hpos⟩, ?_⟩
  by_cases hzero : progHdr.filesz = 0
  · exact Or.inl hzero
  · right
    have hne : progHdr.filesz.toNat ≠ 0 := fun hnat => hzero (BitVec.eq_of_toNat_eq hnat)
    rw [segmentBytes_eq (hoffset.resolve_left hzero) hpos, List.length_take, List.length_drop]
      at hlength
    omega

/-- Every segment is in its buffer after the loop. -/
theorem loadSegments_held {indices : List Nat} {st st' : Loading}
    (h : indices.foldlM (loadSegment alloc hdr) st = .ok st')
    (hheaders : ∀ x ∈ loadedHeaders hdr st.file indices, x.2.filesz ≠ 0xffffffff ∧
      (x.2.filesz = 0 ∨ x.2.offset.toNat < 2 ^ 31))
    (hbuffers : EachRound (loadSegment alloc hdr) (fun s index =>
      (headerRead hdr s.file index).type = programTypeLoad →
        (headerRead hdr s.file index).filesz = 0 → alloc.place s.heap ≠ none) indices st) :
    ∀ x ∈ loadedHeaders hdr st.file indices,
      ∃ p, SegmentHeld st.file.content x.2 st'.heap st'.memory.regions.pmrOps p := by
  induction indices generalizing st with
  | nil => simp [loadedHeaders]
  | cons index indices ih =>
    rw [List.foldlM_cons] at h
    obtain ⟨st₁, hround, h⟩ := bind_eq_ok.mp h
    obtain ⟨hbuffer, hrest⟩ := eachRound_cons.mp hbuffers
    replace hrest := hrest st₁ hround
    obtain ⟨-, ⟨htype, rfl⟩ | ⟨htype, hloaded⟩⟩ := loadSegment_cases hround
    · rw [loadedHeaders, if_pos htype] at hheaders ⊢
      have hheld := ih h hheaders hrest
      rwa [HostFile.content_behindHeader] at hheld
    · rw [loadedHeaders, if_neg (not_not.mpr htype)] at hheaders ⊢
      have hfile : st₁.file = (st.file.behindHeader hdr index).behindSegment
        (headerRead hdr st.file index) := hloaded.file
      intro x hx
      rcases List.mem_cons.mp hx with rfl | hx
      · obtain ⟨hfilesz, hoffset⟩ := hheaders _ List.mem_cons_self
        obtain ⟨p, hheld⟩ := hloaded.held hfilesz hoffset (hbuffer htype)
        rw [HostFile.content_behindHeader] at hheld
        exact ⟨p, hheld.loadSegments h⟩
      · rw [← hfile] at hx hheaders
        obtain ⟨p, hheld⟩ := ih h (fun y hy => hheaders y (List.mem_cons_of_mem _ hy)) hrest x hx
        rw [hfile, HostFile.content_behindSegment, HostFile.content_behindHeader] at hheld
        exact ⟨p, hheld⟩

end Held

/-! ## Writes inside the buffers -/

/-- A read of no more bytes than the buffer has stays inside it. -/
theorem elfRead_ne_outOfBounds {file : HostFile} {room : Option Nat} {offset size : Int}
    (hroom : ∀ n, room = some n → size.toNat ≤ n) :
    elfRead file room offset size ≠ .error .outOfBounds := by
  intro h
  unfold elfRead at h
  simp only at h
  split at h
  next => cases h
  next =>
    cases room with
    | none => cases h
    | some n =>
      simp only at h
      split at h
      next => cases h
      next hlength => exact hlength (Nat.le_trans (List.length_take_le _ _) (hroom n rfl))

theorem elfProgramHeader_ne_outOfBounds (file : HostFile) (hdr : ElfHeader) (index : Nat) :
    elfProgramHeader file hdr index ≠ .error .outOfBounds := by
  intro h
  unfold elfProgramHeader at h
  split at h
  next => cases h
  next =>
    rcases bind_eq_error.mp h with h | ⟨u, hcheck, h⟩
    · cases (check_eq_error.mp h).2
    rcases bind_eq_error.mp h with h | ⟨a, -, h⟩
    · refine elfRead_ne_outOfBounds ?_ h
      rintro n ⟨⟩
      exact Nat.le_of_eq (check_eq_ok.mp hcheck).symm
    · cases h

/-- A segment with no more bytes in the file than in memory is read into its buffer. -/
theorem loadProgramHeader_ne_outOfBounds {alloc : Allocator} {st : Loading}
    {progHdr : ElfProgramHeader} (hsize : progHdr.filesz ≤ progHdr.memsz) :
    loadProgramHeader alloc st progHdr ≠ .error .outOfBounds := by
  have hle : progHdr.filesz.toInt.toNat ≤ progHdr.memsz.toNat := by
    have htoInt := BitVec.toInt_eq_toNat_cond progHdr.filesz
    bv_omega
  intro h
  unfold loadProgramHeader at h
  simp only [preallocate_snd] at h
  rcases bind_eq_error.mp h with h | ⟨read, hread, h⟩
  · refine elfRead_ne_outOfBounds ?_ h
    intro n hn
    obtain ⟨p, -, rfl⟩ := Option.map_eq_some_iff.mp hn
    exact hle
  obtain ⟨done, bytes, file⟩ := read
  rcases bind_eq_error.mp h with h | ⟨u, hcheck, h⟩
  · cases (check_eq_error.mp h).2
  obtain rfl : done = true := check_eq_ok.mp hcheck
  obtain ⟨rfl, -, -⟩ := elfRead_ok hread
  rcases bind_eq_error.mp h with h | ⟨heap, -, h⟩
  · cases hplace : alloc.place st.heap with
    | none =>
      rw [hplace] at h
      cases h
    | some p =>
      rw [hplace] at h
      simp only [fillBuffer, HostHeap.preallocatePhysicalMemory, HostHeap.store,
        Function.update_self] at h
      split at h
      next => cases h
      next hlength =>
        refine hlength ?_
        rw [Nat.zero_add]
        exact Nat.le_trans (List.length_take_le _ _) hle
  rcases bind_eq_error.mp h with h | ⟨regions, -, h⟩
  · exact registerPmRegionOperation_ne_outOfBounds _ _ h
  · cases h

theorem loadSegments_ne_outOfBounds {alloc : Allocator} {hdr : ElfHeader} {indices : List Nat}
    {st : Loading}
    (hsizes : ∀ x ∈ loadedHeaders hdr st.file indices, x.2.filesz ≤ x.2.memsz) :
    indices.foldlM (loadSegment alloc hdr) st ≠ .error .outOfBounds := by
  induction indices generalizing st with
  | nil =>
    intro h
    cases h
  | cons index indices ih =>
    rw [List.foldlM_cons]
    intro h
    rcases bind_eq_error.mp h with h | ⟨st₁, hround, h⟩
    · rcases bind_eq_error.mp h with h | ⟨⟨found, file⟩, hread, h⟩
      · exact elfProgramHeader_ne_outOfBounds _ _ _ h
      cases found with
      | none => cases h
      | some progHdr =>
        obtain ⟨-, -, rfl, rfl, -⟩ := elfProgramHeader_ok hread
        simp only [require, ok_bind] at h
        split at h
        next => cases h
        next htype =>
          rw [loadedHeaders, if_neg htype] at hsizes
          exact loadProgramHeader_ne_outOfBounds (hsizes _ List.mem_cons_self) h
    · obtain ⟨-, ⟨htype, rfl⟩ | ⟨htype, hloaded⟩⟩ := loadSegment_cases hround
      · rw [loadedHeaders, if_pos htype] at hsizes
        exact ih hsizes h
      · rw [loadedHeaders, if_neg (not_not.mpr htype)] at hsizes
        refine ih ?_ h
        rw [hloaded.file]
        exact fun x hx => hsizes x (List.mem_cons_of_mem _ hx)

theorem stackInit_ne_outOfBounds (heap : HostHeap) (vm : VirtualMemory)
    (rc : Option HostPointer) : stackInit heap vm rc ≠ .error .outOfBounds := by
  intro h
  rcases bind_eq_error.mp h with h | ⟨-, -, h⟩
  · cases (check_eq_error.mp h).2
  rcases bind_eq_error.mp h with h | ⟨regions, -, h⟩
  · exact registerPmRegionOperation_ne_outOfBounds _ _ h
  rcases bind_eq_error.mp h with h | ⟨found, -, h⟩
  · exact searchPmRegionCallback_ne_error (by decide) _ _ h
  rcases bind_eq_error.mp h with h | ⟨-, -, h⟩
  · cases (check_eq_error.mp h).2
  · cases h

theorem heapInit_ne_outOfBounds (vm : VirtualMemory) (progBreak : Word) :
    heapInit vm progBreak ≠ .error .outOfBounds := by
  intro h
  rcases bind_eq_error.mp h with h | ⟨regions, -, h⟩
  · exact registerPmRegionOperation_ne_outOfBounds _ _ h
  rcases bind_eq_error.mp h with h | ⟨found, -, h⟩
  · exact searchPmRegionCallback_ne_error (by decide) _ _ h
  rcases bind_eq_error.mp h with h | ⟨-, -, h⟩
  · cases (check_eq_error.mp h).2
  · cases h

/-- A program whose segments fit their buffers is read without a write outside of them. -/
theorem programInit_ne_outOfBounds {alloc : Allocator} {heap : HostHeap} {hart : Hart}
    {memory : VirtualMemory} {content : List Byte}
    (hsizes : ∀ x ∈ programHeaders content, x.2.filesz ≤ x.2.memsz) :
    programInit alloc heap hart memory (some content) ≠ .error .outOfBounds := by
  intro h
  rcases bind_eq_error.mp h with h | ⟨bytes, hcontent, h⟩
  · cases h
  obtain rfl := Option.some.inj (require_eq_ok.mp hcontent)
  rcases bind_eq_error.mp h with h | ⟨⟨found, file⟩, hread, h⟩
  · rcases bind_eq_error.mp h with h | ⟨a, -, h⟩
    · refine elfRead_ne_outOfBounds ?_ h
      rintro n ⟨⟩
      exact Nat.le_refl _
    · cases h
  cases found with
  | none => cases h
  | some hdr =>
    obtain ⟨rfl, rfl⟩ := elfHeader_ok hread
    simp only [require, ok_bind] at h
    rcases bind_eq_error.mp h with h | ⟨st, -, h⟩
    · refine loadSegments_ne_outOfBounds ?_ h
      exact hsizes
    rcases bind_eq_error.mp h with h | ⟨⟨heap₁, memory₁⟩, -, h⟩
    · exact stackInit_ne_outOfBounds _ _ _ h
    rcases bind_eq_error.mp h with h | ⟨memory', -, h⟩
    · exact heapInit_ne_outOfBounds _ _ h
    · cases h

section Run

variable {alloc : Allocator} {heap heap' : HostHeap} {hart hart' : Hart} {stale : List PmRegion}
  {vmaHeap vmaStack : Option Nat} {content : List Byte} {memory : VirtualMemory}

/-- The headers of the table that can be sought are loaded. -/
theorem loadHeader_iff
    (h : programInit alloc heap hart ⟨⟨[], stale⟩, vmaHeap, vmaStack⟩ (some content) =
      .ok (heap', hart', memory)) {index : Nat} {progHdr : ElfProgramHeader}
    (hplace : (programHeader content).place index < 2 ^ 31) :
    LoadHeader content index progHdr ↔ (index, progHdr) ∈ programHeaders content := by
  obtain ⟨st, memory₁, hload, -⟩ := programInit_ok h
  rw [programHeaders, mem_loadedHeaders hplace, List.mem_range]
  constructor
  · rintro ⟨hindex, -, hheader, htype⟩
    exact ⟨hindex, hheader, htype⟩
  · rintro ⟨hindex, hheader, htype⟩
    obtain ⟨file, hfile, hread⟩ := loadSegments_read hload index (List.mem_range.mpr hindex)
    have hinside := hread.inside
    rw [file.position_toHeader hplace, hfile] at hinside
    exact ⟨hindex, hinside, hheader, htype⟩

/-- The regions of a loaded program, without their buffers. -/
def programRegions (content : List Byte) : List PmRegion :=
  heapRegionAt (initialBreak content) :: stackRegion none ::
    (programHeaders content).map fun x => x.2.region none

theorem mem_programRegions {x : Nat × ElfProgramHeader} (hx : x ∈ programHeaders content) :
    x.2.region none ∈ programRegions content :=
  List.mem_cons_of_mem _ (List.mem_cons_of_mem _ (List.mem_map_of_mem hx))

/-- The table of a loaded program has the segments, the stack and the heap. -/
theorem programInit_regions
    (h : programInit alloc heap hart ⟨⟨[], stale⟩, vmaHeap, vmaStack⟩ (some content) =
      .ok (heap', hart', memory)) :
    RegionsInOrder memory.regions.pmrOps ∧
      (memory.regions.pmrOps.map PmRegion.bare).Perm (programRegions content) := by
  obtain ⟨st, memory₁, hload, hstack, hheap, -⟩ := programInit_ok h
  have horder := loadSegments_inOrder regionsInOrder_nil hload
  have horder₁ := stackInit_inOrder horder hstack
  have hregions := loadSegments_regions hload
  rw [show (⟨⟨[], stale⟩, vmaHeap, vmaStack⟩ : VirtualMemory).regions.pmrOps.map PmRegion.bare =
    [] from rfl, List.append_nil] at hregions
  obtain ⟨p, l₁, l₂, -, -, hl, htable₁, -⟩ := stackInit_ok horder hstack
  obtain ⟨m₁, m₂, hm, htable, -⟩ := heapInit_split horder₁ hheap
  refine ⟨heapInit_inOrder horder₁ hheap, ?_⟩
  have hlast : memory.regions.pmrOps.Perm (heapRegionAt (initialBreak content) ::
      stackRegion (some p) :: st.memory.regions.pmrOps) := by
    rw [htable, hl]
    refine List.perm_middle.trans (List.Perm.cons _ ?_)
    rw [← hm, htable₁]
    exact List.perm_middle
  exact (hlast.map PmRegion.bare).trans (.cons _ (.cons _ hregions))

/-- Two regions have no address in common. -/
def PmRegion.Apart (a b : PmRegion) : Prop := a.addrHigh ≤ b.addrLow ∨ b.addrHigh ≤ a.addrLow

theorem PmRegion.Apart.not_contains {a b : PmRegion} (h : a.Apart b) {address : Word}
    (hb : b.Contains address) : ¬ a.Contains address := by
  rintro ⟨hlow, hhigh⟩
  unfold PmRegion.Apart at h
  unfold PmRegion.Contains at hb
  bv_omega

/-- The segments, the stack and the heap have addresses, and lie apart from each other. -/
theorem programRegions_apart
    (h : programInit alloc heap hart ⟨⟨[], stale⟩, vmaHeap, vmaStack⟩ (some content) =
      .ok (heap', hart', memory)) :
    (∀ r ∈ programRegions content, r.addrLow < r.addrHigh) ∧
      (programRegions content).Pairwise PmRegion.Apart := by
  obtain ⟨horder, hperm⟩ := programInit_regions h
  constructor
  · intro r hr
    obtain ⟨r₀, hr₀, rfl⟩ := List.mem_map.mp (hperm.mem_iff.mpr hr)
    exact horder.nonempty r₀ hr₀
  · have hpairwise : (memory.regions.pmrOps.map PmRegion.bare).Pairwise PmRegion.Apart := by
      rw [List.pairwise_map]
      exact horder.below.imp fun hbelow => Or.inl hbelow
    exact hperm.pairwise hpairwise fun hab => Or.symm hab

theorem programHeaders_nonempty
    (h : programInit alloc heap hart ⟨⟨[], stale⟩, vmaHeap, vmaStack⟩ (some content) =
      .ok (heap', hart', memory)) : ∀ x ∈ programHeaders content, x.2.vaddr < x.2.high :=
  fun _ hx => (programRegions_apart h).1 _ (mem_programRegions hx)

/-- Two segments lie apart. -/
theorem programHeaders_apart
    (h : programInit alloc heap hart ⟨⟨[], stale⟩, vmaHeap, vmaStack⟩ (some content) =
      .ok (heap', hart', memory)) {x y : Nat × ElfProgramHeader}
    (hx : x ∈ programHeaders content) (hy : y ∈ programHeaders content) (hne : x ≠ y) :
    (x.2.region none).Apart (y.2.region none) := by
  obtain ⟨-, hapart⟩ := programRegions_apart h
  obtain ⟨-, hapart⟩ := List.pairwise_cons.mp hapart
  obtain ⟨-, hapart⟩ := List.pairwise_cons.mp hapart
  have : Std.Symm fun y z : Nat × ElfProgramHeader =>
    (y.2.region none).Apart (z.2.region none) := ⟨fun _ _ => Or.symm⟩
  exact (List.pairwise_map.mp hapart).forall hx hy hne

/-- The addresses of a segment that was registered are those between its ends. -/
theorem ElfProgramHeader.holds_iff {progHdr : ElfProgramHeader}
    (hnonempty : progHdr.vaddr < progHdr.high) (address : Word) :
    progHdr.Holds address ↔ (progHdr.region none).Contains address := by
  unfold ElfProgramHeader.Holds PmRegion.Contains ElfProgramHeader.region
  unfold ElfProgramHeader.high at *
  simp only
  constructor
  · rintro ⟨hlow, hhigh⟩
    constructor <;> bv_omega
  · rintro ⟨hlow, hhigh⟩
    constructor <;> bv_omega

/-- The addresses of a loaded program are those of the segments, the stack and the heap. -/
theorem programInit_covered
    (h : programInit alloc heap hart ⟨⟨[], stale⟩, vmaHeap, vmaStack⟩ (some content) =
      .ok (heap', hart', memory)) (address : Word) :
    (∃ r ∈ memory.regions.pmrOps, r.Contains address) ↔
      (∃ x ∈ programHeaders content, x.2.Holds address) ∨
        (stackRegion none).Contains address ∨
          (heapRegionAt (initialBreak content)).Contains address := by
  obtain ⟨-, hperm⟩ := programInit_regions h
  have hnonempty := programHeaders_nonempty h
  have hunbacked : (∃ r ∈ memory.regions.pmrOps, r.Contains address) ↔
      ∃ r ∈ memory.regions.pmrOps.map PmRegion.bare, r.Contains address := by simp
  rw [hunbacked]
  simp only [hperm.mem_iff, programRegions, List.mem_cons, List.mem_map]
  constructor
  · rintro ⟨r, rfl | rfl | ⟨x, hx, rfl⟩, hcontains⟩
    · exact Or.inr (Or.inr hcontains)
    · exact Or.inr (Or.inl hcontains)
    · exact Or.inl ⟨x, hx, (x.2.holds_iff (hnonempty x hx) address).mpr hcontains⟩
  · rintro (⟨x, hx, hholds⟩ | hcontains | hcontains)
    · exact ⟨_, Or.inr (Or.inr ⟨x, hx, rfl⟩), (x.2.holds_iff (hnonempty x hx) address).mp hholds⟩
    · exact ⟨_, Or.inr (Or.inl rfl), hcontains⟩
    · exact ⟨_, Or.inl rfl, hcontains⟩

/-- No segment has all addresses but one, since the stack has some. -/
theorem programHeaders_memsz
    (h : programInit alloc heap hart ⟨⟨[], stale⟩, vmaHeap, vmaStack⟩ (some content) =
      .ok (heap', hart', memory)) {x : Nat × ElfProgramHeader} (hx : x ∈ programHeaders content) :
    x.2.memsz ≠ 0xffffffff := by
  obtain ⟨-, hapart⟩ := programRegions_apart h
  have hnonempty := programHeaders_nonempty h x hx
  have hstack := (List.pairwise_cons.mp (List.pairwise_cons.mp hapart).2).1 _
    (List.mem_map_of_mem hx)
  unfold PmRegion.Apart stackRegion ElfProgramHeader.region ElfProgramHeader.high at *
  have hlow : defaultStackCeiling - BitVec.ofNat 32 defaultStackSize = 0xdf800000 := by decide
  have hhigh : defaultStackCeiling = 0xe0000000 := rfl
  simp only at hstack
  rw [hlow, hhigh] at hstack
  intro hmemsz
  rw [hmemsz] at hnonempty hstack
  bv_omega

/-- A byte of a segment that is held is read from its buffer. -/
theorem SegmentHeld.directRead {progHdr : ElfProgramHeader} {p : HostPointer}
    (hheld : SegmentHeld content progHdr heap memory.regions.pmrOps p)
    (horder : RegionsInOrder memory.regions.pmrOps) {i : Nat} (hi : i < progHdr.memsz.toNat) :
    directRead heap memory.regions (progHdr.vaddr + BitVec.ofNat 32 i) 1 =
      .ok (segmentByte content progHdr i).toNat := by
  obtain ⟨b, hb, hsize, hbyte⟩ := hheld.buffer
  have hnonempty : progHdr.vaddr < progHdr.high := horder.nonempty _ hheld.mem
  have hlt := progHdr.memsz.isLt
  have hcontains : (progHdr.region (some p)).Contains (progHdr.vaddr + BitVec.ofNat 32 i) := by
    unfold PmRegion.Contains ElfProgramHeader.region
    unfold ElfProgramHeader.high at *
    simp only
    constructor <;> bv_omega
  have hoffset : (progHdr.vaddr + BitVec.ofNat 32 i - (progHdr.region (some p)).addrLow).toNat =
      i := by
    show (progHdr.vaddr + BitVec.ofNat 32 i - progHdr.vaddr).toNat = i
    bv_omega
  rw [directRead_of_contains horder hheld.mem hcontains,
    vmaGenericRead_eq rfl hb (by rw [hoffset]; omega), hoffset]
  simp [Buffer.bytes, hbyte, ofLeBytes]

/-- The stack and the heap leave the segments as they are. -/
theorem startup_keeps {vm vm₁ : VirtualMemory} {progBreak : Word}
    (horder : RegionsInOrder vm.regions.pmrOps)
    (hstack : stackInit heap vm (alloc.place heap) = .ok (heap', vm₁))
    (hheap : heapInit vm₁ progBreak = .ok memory) :
    vm.regions.pmrOps ⊆ memory.regions.pmrOps ∧
      ∀ p b, heap p = some b → heap' p = some b := by
  obtain ⟨q, l₁, l₂, hq, rfl, hl, htable₁, -⟩ := stackInit_ok horder hstack
  obtain ⟨m₁, m₂, hm, htable, -⟩ := heapInit_split (stackInit_inOrder horder hstack) hheap
  constructor
  · intro r hr
    have hr₁ : r ∈ m₁ ++ m₂ := by
      rw [hl] at hr
      rw [← hm, htable₁]
      exact ((List.sublist_cons_self _ _).append_left _).subset hr
    rw [htable]
    exact ((List.sublist_cons_self _ _).append_left _).subset hr₁
  · intro p b hb
    have hne : p ≠ q := by
      rintro rfl
      rw [alloc.free _ _ hq] at hb
      cases hb
    rw [Function.update_of_ne hne, hb]

/-- After `program_init` every segment is in its buffer. -/
theorem Loadable.held
    (h : programInit alloc heap hart ⟨⟨[], stale⟩, vmaHeap, vmaStack⟩ (some content) =
      .ok (heap', hart', memory))
    (hloadable : Loadable alloc heap ⟨⟨[], stale⟩, vmaHeap, vmaStack⟩ content) :
    ∀ x ∈ programHeaders content,
      ∃ p, SegmentHeld content x.2 heap' memory.regions.pmrOps p := by
  have hheaders : ∀ x ∈ programHeaders content, x.2.filesz ≠ 0xffffffff ∧
      (x.2.filesz = 0 ∨ x.2.offset.toNat < 2 ^ 31) := by
    intro x hx
    refine ⟨?_, hloadable.offsets x hx⟩
    intro hfilesz
    have hsize := hloadable.sizes x hx
    have hmemsz := programHeaders_memsz h hx
    rw [hfilesz] at hsize
    bv_omega
  obtain ⟨st, memory₁, hload, hstack, hheap, -⟩ := programInit_ok h
  have horder := loadSegments_inOrder regionsInOrder_nil hload
  obtain ⟨hregions, hlive⟩ := startup_keeps horder hstack hheap
  intro x hx
  obtain ⟨p, hmem, ⟨b, hb, hbuffer⟩, hinside⟩ :=
    loadSegments_held hload hheaders hloadable.buffers x hx
  exact ⟨p, hregions hmem, ⟨b, hlive p b hb, hbuffer⟩, hinside⟩

/-- A program that meets the conditions is loaded as its file says. -/
theorem Loadable.image
    (h : programInit alloc heap hart ⟨⟨[], stale⟩, vmaHeap, vmaStack⟩ (some content) =
      .ok (heap', hart', memory))
    (hloadable : Loadable alloc heap ⟨⟨[], stale⟩, vmaHeap, vmaStack⟩ content) :
    Image content heap' memory := by
  obtain ⟨horder, hperm⟩ := programInit_regions h
  have hloaded : ∀ index progHdr, LoadHeader content index progHdr ↔
      (index, progHdr) ∈ programHeaders content := by
    intro index progHdr
    constructor
    · intro hheader
      exact (loadHeader_iff h (hloadable.placed index progHdr hheader)).mp hheader
    · intro hmem
      exact (loadHeader_iff h (hloadable.sought _ hmem)).mpr hmem
  have hheld : ∀ index progHdr, LoadHeader content index progHdr →
      ∃ p, SegmentHeld content progHdr heap' memory.regions.pmrOps p := by
    intro index progHdr hheader
    exact hloadable.held h _ ((hloaded index progHdr).mp hheader)
  refine ⟨?_, ?_, ?_, ?_⟩
  · intro index progHdr hheader i hi
    have hmem := (hloaded index progHdr).mp hheader
    obtain ⟨p, hheld⟩ := hheld index progHdr hheader
    have hsize : progHdr.filesz.toNat ≤ progHdr.memsz.toNat := hloadable.sizes _ hmem
    have hinside : progHdr.offset.toNat + i < content.length := by
      rcases hheld.inside with hzero | hinside
      · have hzero' : progHdr.filesz.toNat = 0 := congrArg BitVec.toNat hzero
        omega
      · omega
    refine ⟨content[progHdr.offset.toNat + i], List.getElem?_eq_getElem hinside, ?_⟩
    rw [hheld.directRead horder (Nat.lt_of_lt_of_le hi hsize), segmentByte, if_pos hi,
      List.getD_eq_getElem _ _ hinside]
  · intro index progHdr hheader i hle hi
    obtain ⟨p, hheld⟩ := hheld index progHdr hheader
    rw [hheld.directRead horder hi, segmentByte, if_neg (by omega)]
    rfl
  · intro address
    rw [programInit_covered h address]
    simp only [hloaded, Prod.exists]
  · have hlength := hperm.length_eq
    simp only [programRegions, List.length_map, List.length_cons] at hlength
    rw [RegionTable.nrPmrOps, hlength]
    exact hloadable.slots

/-- In a file of at most `2^31` bytes no `PT_LOAD` header is where `lseek` takes no offset. -/
theorem LoadHeader.place_lt {index : Nat} {progHdr : ElfProgramHeader}
    (hheader : LoadHeader content index progHdr) (hlength : content.length ≤ 2 ^ 31) :
    (programHeader content).place index < 2 ^ 31 := by
  have hinside := hheader.inside
  unfold elfProgramHeaderSize at hinside
  omega

/-- In such a file, a header that was read where the file happened to stand adds addresses that
are not in the table. -/
theorem Image.sought
    (h : programInit alloc heap hart ⟨⟨[], stale⟩, vmaHeap, vmaStack⟩ (some content) =
      .ok (heap', hart', memory))
    (hlength : content.length ≤ 2 ^ 31) (himage : Image content heap' memory) :
    ∀ x ∈ programHeaders content, (programHeader content).place x.1 < 2 ^ 31 := by
  intro x hx
  by_contra hplace
  have hnonempty := programHeaders_nonempty h
  obtain ⟨-, hapart⟩ := programRegions_apart h
  obtain ⟨hheapApart, hapart⟩ := List.pairwise_cons.mp hapart
  obtain ⟨hstackApart, -⟩ := List.pairwise_cons.mp hapart
  have hregion : x.2.region none ∈ (programHeaders content).map fun x => x.2.region none :=
    List.mem_map_of_mem hx
  have hstart : (x.2.region none).Contains x.2.vaddr := ⟨BitVec.le_refl _, hnonempty x hx⟩
  have hcovered := (programInit_covered h x.2.vaddr).mpr
    (Or.inl ⟨x, hx, (x.2.holds_iff (hnonempty x hx) _).mpr hstart⟩)
  rcases (himage.covered x.2.vaddr).mp hcovered with ⟨index, progHdr, hheader, hholds⟩ | hin | hin
  · have hplace' := hheader.place_lt hlength
    have hmem := (loadHeader_iff h hplace').mp hheader
    have hne : (index, progHdr) ≠ x := by
      rintro rfl
      exact hplace hplace'
    have hpair := programHeaders_apart h hmem hx hne
    exact hpair.not_contains hstart ((progHdr.holds_iff (hnonempty _ hmem) _).mp hholds)
  · exact (hstackApart _ hregion).not_contains hstart hin
  · exact (hheapApart _ (List.mem_cons_of_mem _ hregion)).not_contains hstart hin

/-- A segment without a buffer cannot be read. -/
theorem directRead_unbacked {t : RegionTable} {r : PmRegion} (horder : RegionsInOrder t.pmrOps)
    (hr : r ∈ t.pmrOps) (hbase : r.hostBase = none) (heap : HostHeap) (accessSize value : Nat) :
    directRead heap t r.addrLow accessSize ≠ .ok value := by
  have hcontains : r.Contains r.addrLow := ⟨BitVec.le_refl _, horder.nonempty r hr⟩
  rw [directRead_of_contains horder hr hcontains, vmaGenericRead, hbase]
  intro h
  cases h

/-- A program of at most `2^31` bytes that is loaded as its file says meets the conditions. -/
theorem Image.loadable
    (h : programInit alloc heap hart ⟨⟨[], stale⟩, vmaHeap, vmaStack⟩ (some content) =
      .ok (heap', hart', memory))
    (hlength : content.length ≤ 2 ^ 31) (himage : Image content heap' memory) :
    Loadable alloc heap ⟨⟨[], stale⟩, vmaHeap, vmaStack⟩ content := by
  have hsought := himage.sought h hlength
  obtain ⟨horder, hperm⟩ := programInit_regions h
  have hnonempty := programHeaders_nonempty h
  obtain ⟨st, memory₁, hload, hstack, hheap, -⟩ := programInit_ok h
  have hheaders : ∀ x ∈ programHeaders content, LoadHeader content x.1 x.2 := by
    intro x hx
    exact (loadHeader_iff h (hsought x hx)).mpr hx
  -- The bytes of a segment in the file are bytes of the file.
  have hinside : ∀ x ∈ programHeaders content, ∀ i < x.2.filesz.toNat,
      x.2.offset.toNat + i < 2 ^ 31 := by
    intro x hx i hi
    obtain ⟨b, hb, -⟩ := himage.data x.1 x.2 (hheaders x hx) i hi
    obtain ⟨hlt, -⟩ := List.getElem?_eq_some_iff.mp hb
    omega
  refine ⟨fun index progHdr hheader => hheader.place_lt hlength, hsought, ?_, ?_, ?_, ?_⟩
  · intro x hx
    refine (loadSegments_sizes hload x hx).resolve_left fun hfilesz => ?_
    have hlast := hinside x hx (2 ^ 32 - 2) (by rw [hfilesz]; decide)
    omega
  · intro x hx
    by_cases hzero : x.2.filesz = 0
    · exact Or.inl hzero
    · have hne : x.2.filesz.toNat ≠ 0 := fun hnat => hzero (BitVec.eq_of_toNat_eq hnat)
      exact Or.inr (hinside x hx 0 (by omega))
  · have hslots := himage.slots
    have hperm := hperm.length_eq
    simp only [programRegions, List.length_map, List.length_cons] at hperm
    rw [RegionTable.nrPmrOps, hperm] at hslots
    exact hslots
  · intro before index after st₁ hrange hbefore htype hzero hplace
    have hmem : (index, headerRead (programHeader content) st₁.file index) ∈
        programHeaders content := by
      rw [programHeaders, hrange]
      exact mem_loadedHeaders_of_round hbefore htype
    have horder₁ := loadSegments_inOrder regionsInOrder_nil hload
    rw [hrange, List.foldlM_append, hbefore, ok_bind, List.foldlM_cons] at hload
    obtain ⟨st₂, hround, hafter⟩ := bind_eq_ok.mp hload
    obtain ⟨-, ⟨hskip, -⟩ | ⟨-, hloaded⟩⟩ := loadSegment_cases hround
    · exact hskip htype
    have hregister := hloaded.registered
    simp only [hplace] at hregister
    have hregion := loadSegments_subset hafter
      ((registerPmRegionOperation_perm hregister).mem_iff.mpr List.mem_cons_self)
    obtain ⟨hkept, -⟩ := startup_keeps horder₁ hstack hheap
    refine directRead_unbacked horder (hkept hregion) rfl heap' 1 0 ?_
    have hmemsz : 0 < (headerRead (programHeader content) st₁.file index).memsz.toNat := by
      have hlow := hnonempty _ hmem
      unfold ElfProgramHeader.high at hlow
      bv_omega
    have hread := himage.zero _ _ (hheaders _ hmem) 0 (by simp [hzero]) hmemsz
    simp only [BitVec.add_zero] at hread
    exact hread

/-- `program_init` returns, and the memory holds what the file says. -/
def LoadsImage (alloc : Allocator) (heap : HostHeap) (hart : Hart) (memory : VirtualMemory)
    (content : List Byte) : Prop :=
  ∃ heap' hart' memory', programInit alloc heap hart memory (some content) =
    .ok (heap', hart', memory') ∧ Image content heap' memory'

/-- A program at which `program_init` does not stop is loaded as its file says, with no write
outside a buffer, if it meets the conditions.  In a file of at most `2^31` bytes, where a segment
cannot be read from another place by chance, it is not loaded so otherwise. -/
theorem programInit_image_iff
    (hreturns : ∀ e, programInit alloc heap hart ⟨⟨[], stale⟩, vmaHeap, vmaStack⟩ (some content) =
      .error e → e = .outOfBounds) :
    (Loadable alloc heap ⟨⟨[], stale⟩, vmaHeap, vmaStack⟩ content →
      LoadsImage alloc heap hart ⟨⟨[], stale⟩, vmaHeap, vmaStack⟩ content) ∧
    (content.length ≤ 2 ^ 31 → LoadsImage alloc heap hart ⟨⟨[], stale⟩, vmaHeap, vmaStack⟩ content →
      Loadable alloc heap ⟨⟨[], stale⟩, vmaHeap, vmaStack⟩ content) := by
  constructor
  · intro hloadable
    cases hrun : programInit alloc heap hart ⟨⟨[], stale⟩, vmaHeap, vmaStack⟩ (some content) with
    | error e =>
      rw [hreturns e hrun] at hrun
      exact absurd hrun (programInit_ne_outOfBounds hloadable.sizes)
    | ok result =>
      obtain ⟨heap', hart', memory⟩ := result
      exact ⟨heap', hart', memory, hrun, hloadable.image hrun⟩
  · rintro hlength ⟨heap', hart', memory, hrun, himage⟩
    exact himage.loadable hrun hlength

end Run

/-! ## Two programs -/

/-- The only header of the file is loaded. -/
theorem programHeaders_segmentElf {progHdr : ElfProgramHeader} (data : List Byte)
    (htype : progHdr.type = programTypeLoad) :
    programHeaders (segmentElf progHdr data) = [(0, progHdr)] := by
  have hphnum : (ElfHeader.ofBytes oneHeader).phnum = 1 := by decide
  have hplace : (ElfHeader.ofBytes oneHeader).place 0 = 52 := by decide
  have hread : headerRead (.ofBytes oneHeader) ⟨segmentElf progHdr data, elfHeaderSize⟩ 0 =
      progHdr := by
    have hdrop : (segmentElf progHdr data).drop 52 = progHdr.bytes ++ data := List.drop_left' rfl
    have htake : (progHdr.bytes ++ data).take elfProgramHeaderSize = progHdr.bytes :=
      List.take_left' rfl
    rw [headerRead_of_place _ (by rw [hplace]; decide), hplace, headerAt, hdrop, htake,
      ElfProgramHeader.ofBytes_bytes]
  rw [programHeaders, programHeader_segmentElf, hphnum, List.range_one, loadedHeaders, hread,
    if_neg (not_not.mpr htype)]
  rfl

theorem loadable_highElf : Loadable (.lowest 2) (fun _ => none) .empty highElf := by
  have hheaders : programHeaders highElf = [(0, highSegment)] := programHeaders_segmentElf _ rfl
  have hheader : programHeader highElf = .ofBytes oneHeader := programHeader_segmentElf _ _
  have hphnum : (ElfHeader.ofBytes oneHeader).phnum = 1 := by decide
  have hplace : (ElfHeader.ofBytes oneHeader).place 0 = 52 := by decide
  refine ⟨?_, ?_, ?_, ?_, ?_, ?_⟩
  · rintro index progHdr ⟨hindex, -⟩
    rw [hheader, hphnum] at hindex
    obtain rfl : index = 0 := by omega
    rw [hheader, hplace]
    decide
  · rw [hheaders, hheader]
    simp only [List.mem_singleton, forall_eq, hplace]
    decide
  · rw [hheaders]
    simp only [List.mem_singleton, forall_eq]
    decide
  · rw [hheaders]
    simp only [List.mem_singleton, forall_eq]
    decide
  · rw [hheaders]
    decide
  · intro before index after st hrange hbefore htype hzero
    have hmem : (index, headerRead (programHeader highElf) st.file index) ∈
        programHeaders highElf := by
      rw [programHeaders, hrange]
      exact mem_loadedHeaders_of_round hbefore htype
    rw [hheaders, List.mem_singleton, Prod.mk.injEq] at hmem
    rw [hmem.2] at hzero
    exact absurd hzero (by decide)

/-- A segment below the highest address is loaded. -/
theorem programInit_image_highElf :
    Loadable (.lowest 2) (fun _ => none) .empty highElf ∧
      LoadsImage (.lowest 2) (fun _ => none) (.initial 0) .empty highElf := by
  obtain ⟨heap, hrun⟩ := programInit_highElf (.initial 0)
  have hreturns : ∀ e, programInit (.lowest 2) (fun _ => none) (.initial 0) .empty
      (some highElf) = .error e → e = .outOfBounds := by
    intro e he
    cases hrun.symm.trans he
  exact ⟨loadable_highElf, (programInit_image_iff hreturns).1 loadable_highElf⟩

/-- A segment with two bytes in the file and one in memory. -/
def overfullSegment : ElfProgramHeader := ⟨programTypeLoad, 84, 0x10000, 2, 1, 5⟩
def overfullElf : List Byte := segmentElf overfullSegment [1, 2]

/-- The second byte is written behind the buffer. -/
theorem programInit_overfullElf :
    programInit (.lowest 2) (fun _ => none) (.initial 0) .empty (some overfullElf) =
        .error .outOfBounds ∧
      ¬ LoadsImage (.lowest 2) (fun _ => none) (.initial 0) .empty overfullElf := by
  have hrun : programInit (.lowest 2) (fun _ => none) (.initial 0) .empty (some overfullElf) =
      .error .outOfBounds := by
    have hheader : elfHeader ⟨overfullElf, 0⟩ =
        .ok (some (.ofBytes oneHeader), ⟨overfullElf, elfHeaderSize⟩) :=
      elfHeader_segmentElf overfullSegment [1, 2]
    have hprogHdr := elfProgramHeader_segmentElf overfullSegment [1, 2]
      ⟨overfullElf, elfHeaderSize⟩ rfl
    have hread : elfRead ⟨overfullElf, 84⟩ (some 1) 84 2 = .error .outOfBounds := rfl
    have hphnum : (ElfHeader.ofBytes oneHeader).phnum = 1 := by decide
    have hplace : (Allocator.lowest 2).place (fun _ => none) = some 0 := rfl
    have hload : loadProgramHeader (.lowest 2) ⟨⟨overfullElf, 84⟩, fun _ => none, .empty, 0⟩
        overfullSegment = .error .outOfBounds := by
      unfold loadProgramHeader
      simp only [hplace, HostHeap.preallocatePhysicalMemory, Option.map_some]
      exact congrArg (· >>= _) hread
    have hround : loadSegment (.lowest 2) (.ofBytes oneHeader)
        ⟨⟨overfullElf, elfHeaderSize⟩, fun _ => none, .empty, 0⟩ 0 = .error .outOfBounds := by
      unfold loadSegment
      simp only [hprogHdr, ok_bind, require]
      exact hload
    simp only [programInit, require, ok_bind, hheader, hphnum, List.range_one, List.foldlM_cons,
      hround, error_bind]
  refine ⟨hrun, ?_⟩
  rintro ⟨heap, hart, memory, hok, -⟩
  cases hrun.symm.trans hok

end Hyrule
