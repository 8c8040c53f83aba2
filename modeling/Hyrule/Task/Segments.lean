import Hyrule.Task.Program

/-!
# The segments of a program

What the loop of `program_init` reads from the file, and what it leaves in the
table.  The loop seeks to every header and to every segment.  An offset is an
`int`: one of `2^31` or more is negative, the host refuses to seek there, and the
loop reads on at the place where the file stands.  `loadedHeaders` follows that
place, so it has the headers of the segments that are loaded from any file.

`loadSegment_cases` says all that a round of the loop does.  The rest of the
module follows the table over the whole loop and over `program_init`.
-/

namespace Hyrule

open Lib Lib.Result

/-! ## What is read -/

/-- The file at a header. -/
def HostFile.toHeader (file : HostFile) (hdr : ElfHeader) (index : Nat) : HostFile :=
  file.seek (hdr.phoff + BitVec.ofNat 32 (index * hdr.phentsize)).toInt

/-- The file behind a header. -/
def HostFile.behindHeader (file : HostFile) (hdr : ElfHeader) (index : Nat) : HostFile :=
  { file.toHeader hdr index with
    position := (file.toHeader hdr index).position + elfProgramHeaderSize }

/-- The header that is read. -/
def headerRead (hdr : ElfHeader) (file : HostFile) (index : Nat) : ElfProgramHeader :=
  .ofBytes (((file.toHeader hdr index).content.drop (file.toHeader hdr index).position).take
    elfProgramHeaderSize)

/-- The file behind a segment. -/
def HostFile.behindSegment (file : HostFile) (progHdr : ElfProgramHeader) : HostFile :=
  { file.seek progHdr.offset.toInt with
    position := (file.seek progHdr.offset.toInt).position + progHdr.filesz.toInt.toNat }

/-- The bytes that are read for a segment. -/
def segmentBytes (file : HostFile) (progHdr : ElfProgramHeader) : List Byte :=
  ((file.seek progHdr.offset.toInt).content.drop (file.seek progHdr.offset.toInt).position).take
    progHdr.filesz.toInt.toNat

/-- The headers of the segments that are loaded, with their indices. -/
def loadedHeaders (hdr : ElfHeader) : HostFile → List Nat → List (Nat × ElfProgramHeader)
  | _, [] => []
  | file, index :: indices =>
      if (headerRead hdr file index).type ≠ programTypeLoad then
        loadedHeaders hdr (file.behindHeader hdr index) indices
      else
        (index, headerRead hdr file index) :: loadedHeaders hdr
          ((file.behindHeader hdr index).behindSegment (headerRead hdr file index)) indices

/-- The end of a segment. -/
def ElfProgramHeader.high (progHdr : ElfProgramHeader) : Word := progHdr.vaddr + progHdr.memsz

/-- The region of a segment. -/
def ElfProgramHeader.region (progHdr : ElfProgramHeader) (hostBase : Option HostPointer) :
    PmRegion :=
  ⟨progHdr.vaddr, progHdr.high, progHdr.flags, hostBase⟩

/-- A read that succeeds has read the whole size, except for a size of `-1`. -/
theorem elfRead_ok {file file' : HostFile} {room : Option Nat} {offset size : Int}
    {bytes : List Byte} (h : elfRead file room offset size = .ok (true, bytes, file')) :
    bytes = ((file.seek offset).content.drop (file.seek offset).position).take size.toNat ∧
      file' = { file.seek offset with
        position := (file.seek offset).position + size.toNat } ∧
      (size = -1 ∨ 0 ≤ size ∧ bytes.length = size.toNat ∧ (room = none → size = 0) ∧
        ∀ n, room = some n → size.toNat ≤ n) := by
  unfold elfRead at h
  simp only at h
  split at h
  next hneg =>
    simp only [pure_eq_ok, Except.ok.injEq, Prod.mk.injEq, decide_eq_true_eq] at h
    obtain ⟨hsize, rfl, rfl⟩ := h
    subst hsize
    exact ⟨rfl, rfl, Or.inl rfl⟩
  next hneg =>
    cases room with
    | none =>
      simp only [pure_eq_ok, Except.ok.injEq, Prod.mk.injEq, decide_eq_true_eq] at h
      obtain ⟨⟨-, hsize⟩, rfl, rfl⟩ := h
      subst hsize
      exact ⟨rfl, rfl, Or.inr ⟨by omega, rfl, fun _ => rfl, by simp⟩⟩
    | some n =>
      simp only at h
      split at h
      next hroom =>
        simp only [pure_eq_ok, Except.ok.injEq, Prod.mk.injEq, decide_eq_true_eq] at h
        obtain ⟨hlength, rfl, rfl⟩ := h
        refine ⟨rfl, by rw [hlength], Or.inr ⟨by omega, hlength, by simp, ?_⟩⟩
        rintro m ⟨⟩
        omega
      next => cases h

/-- A header that is returned was read in full. -/
theorem elfProgramHeader_ok {file file' : HostFile} {hdr : ElfHeader} {index : Nat}
    {progHdr : ElfProgramHeader}
    (h : elfProgramHeader file hdr index = .ok (some progHdr, file')) :
    index < hdr.phnum ∧ hdr.phentsize = elfProgramHeaderSize ∧
      progHdr = headerRead hdr file index ∧ file' = file.behindHeader hdr index ∧
      (file.toHeader hdr index).position + elfProgramHeaderSize ≤ file.content.length := by
  unfold elfProgramHeader at h
  split at h
  next => cases h
  next hindex =>
    obtain ⟨u, hcheck, h⟩ := bind_eq_ok.mp h
    have hsize : hdr.phentsize = elfProgramHeaderSize := (check_eq_ok.mp hcheck).symm
    obtain ⟨⟨done, bytes, file₁⟩, hread, h⟩ := bind_eq_ok.mp h
    simp only [pure_eq_ok, Except.ok.injEq, Prod.mk.injEq] at h
    obtain ⟨hfound, rfl⟩ := h
    split at hfound
    next hdone =>
      obtain rfl := Option.some.inj hfound
      rw [hdone] at hread
      obtain ⟨rfl, rfl, hfull⟩ := elfRead_ok hread
      have hcontent : (file.toHeader hdr index).content = file.content := by
        unfold HostFile.toHeader HostFile.seek
        split <;> rfl
      have hlength : (((file.toHeader hdr index).content.drop
          (file.toHeader hdr index).position).take hdr.phentsize).length = hdr.phentsize := by
        rcases hfull with hfull | ⟨-, hfull, -⟩
        · omega
        · exact hfull
      rw [hsize] at hlength
      refine ⟨by omega, hsize, ?_, ?_, ?_⟩
      · unfold headerRead
        rw [← hsize]
        rfl
      · unfold HostFile.behindHeader
        rw [← hsize]
        rfl
      · rw [List.length_take, List.length_drop, hcontent] at hlength
        unfold elfProgramHeaderSize at hlength ⊢
        omega
    next => cases hfound

/-! ## A round of the loop -/

/-- A segment is loaded to a buffer, or to a null pointer. -/
structure SegmentLoaded (alloc : Allocator) (st st' : Loading) (progHdr : ElfProgramHeader) :
    Prop where
  file : st'.file = st.file.behindSegment progHdr
  /-- Nothing is read for a size of `-1`. -/
  size : progHdr.filesz.toInt = -1 ∨ 0 ≤ progHdr.filesz.toInt ∧
    (segmentBytes st.file progHdr).length = progHdr.filesz.toInt.toNat ∧
    (alloc.place st.heap = none → progHdr.filesz.toInt = 0) ∧
    (alloc.place st.heap ≠ none → progHdr.filesz.toInt.toNat ≤ progHdr.memsz.toNat)
  heap : fillBuffer (st.heap.preallocatePhysicalMemory progHdr.memsz.toNat
    (alloc.place st.heap)).1 (alloc.place st.heap) (segmentBytes st.file progHdr) = .ok st'.heap
  registered : registerPmRegionOperation st.memory.regions
    (progHdr.region (alloc.place st.heap)) = .ok st'.memory.regions
  vmaHeap : st'.memory.vmaHeap = st.memory.vmaHeap
  vmaStack : st'.memory.vmaStack = st.memory.vmaStack
  progBreak : st'.progBreak = if progHdr.high > st.progBreak then progHdr.high else st.progBreak

theorem loadProgramHeader_ok {alloc : Allocator} {st st' : Loading} {progHdr : ElfProgramHeader}
    (h : loadProgramHeader alloc st progHdr = .ok st') : SegmentLoaded alloc st st' progHdr := by
  unfold loadProgramHeader at h
  simp only [preallocate_snd] at h
  obtain ⟨⟨done, bytes, file⟩, hread, h⟩ := bind_eq_ok.mp h
  obtain ⟨u, hcheck, h⟩ := bind_eq_ok.mp h
  obtain ⟨heap, hfill, h⟩ := bind_eq_ok.mp h
  obtain ⟨regions, hregister, h⟩ := bind_eq_ok.mp h
  cases h
  obtain rfl : done = true := check_eq_ok.mp hcheck
  obtain ⟨rfl, rfl, hsize⟩ := elfRead_ok hread
  refine ⟨rfl, hsize.imp_right ?_, hfill, hregister, rfl, rfl, rfl⟩
  rintro ⟨hpos, hlength, hnull, hroom⟩
  refine ⟨hpos, hlength, ?_, ?_⟩
  · intro hnone
    exact hnull (by rw [hnone]; rfl)
  · intro hplace
    obtain ⟨p, hp⟩ := Option.ne_none_iff_exists'.mp hplace
    exact hroom _ (by rw [hp]; rfl)

/-- The header at an index was read: the rest of what is said about a round is up to its type. -/
structure HeaderRead (hdr : ElfHeader) (file : HostFile) (index : Nat) : Prop where
  index_lt : index < hdr.phnum
  entsize : hdr.phentsize = elfProgramHeaderSize
  inside : (file.toHeader hdr index).position + elfProgramHeaderSize ≤ file.content.length

/-- A round either passes a header over or loads its segment. -/
theorem loadSegment_cases {alloc : Allocator} {hdr : ElfHeader} {st st' : Loading} {index : Nat}
    (h : loadSegment alloc hdr st index = .ok st') :
    HeaderRead hdr st.file index ∧
      ((headerRead hdr st.file index).type ≠ programTypeLoad ∧
          st' = { st with file := st.file.behindHeader hdr index } ∨
        (headerRead hdr st.file index).type = programTypeLoad ∧
          SegmentLoaded alloc { st with file := st.file.behindHeader hdr index } st'
            (headerRead hdr st.file index)) := by
  obtain ⟨⟨found, file⟩, hheader, h⟩ := bind_eq_ok.mp h
  obtain ⟨progHdr, hfound, h⟩ := bind_eq_ok.mp h
  rw [require_eq_ok] at hfound
  rw [hfound] at hheader
  obtain ⟨hindex, hentsize, rfl, rfl, hinside⟩ := elfProgramHeader_ok hheader
  refine ⟨⟨hindex, hentsize, hinside⟩, ?_⟩
  split at h
  next htype =>
    cases h
    exact Or.inl ⟨htype, rfl⟩
  next htype => exact Or.inr ⟨not_not.mp htype, loadProgramHeader_ok h⟩

/-! ## The whole loop -/

/-- The highest end of some segments, and of an address. -/
def highestEnd : Word → List (Nat × ElfProgramHeader) → Word
  | progBreak, [] => progBreak
  | progBreak, (_, progHdr) :: headers =>
      highestEnd (if progHdr.high > progBreak then progHdr.high else progBreak) headers

/-- An invariant of the rounds holds of the loop.  It is given the headers still to come. -/
theorem loadSegments_induct {alloc : Allocator} {hdr : ElfHeader}
    (inv : List (Nat × ElfProgramHeader) → Loading → Prop)
    (hskip : ∀ headers st file, inv headers st → inv headers { st with file })
    (hload : ∀ headers index progHdr st st', inv ((index, progHdr) :: headers) st →
      SegmentLoaded alloc st st' progHdr → inv headers st')
    {indices : List Nat} {st st' : Loading}
    (h : indices.foldlM (loadSegment alloc hdr) st = .ok st')
    (hinv : inv (loadedHeaders hdr st.file indices) st) : inv [] st' := by
  induction indices generalizing st with
  | nil =>
    obtain rfl : st = st' := by simpa using h
    exact hinv
  | cons index indices ih =>
    rw [List.foldlM_cons] at h
    obtain ⟨st₁, hround, h⟩ := bind_eq_ok.mp h
    obtain ⟨-, ⟨htype, rfl⟩ | ⟨htype, hloaded⟩⟩ := loadSegment_cases hround
    · rw [loadedHeaders, if_pos htype] at hinv
      exact ih h (hskip _ _ _ hinv)
    · rw [loadedHeaders, if_neg (not_not.mpr htype)] at hinv
      refine ih h ?_
      rw [hloaded.file]
      exact hload _ _ _ _ _ (hskip _ _ _ hinv) hloaded

/-- The program break is the highest end of a segment. -/
theorem loadSegments_break {alloc : Allocator} {hdr : ElfHeader} {indices : List Nat}
    {st st' : Loading} (h : indices.foldlM (loadSegment alloc hdr) st = .ok st') :
    st'.progBreak = highestEnd st.progBreak (loadedHeaders hdr st.file indices) := by
  refine loadSegments_induct (fun headers s => highestEnd s.progBreak headers =
    highestEnd st.progBreak (loadedHeaders hdr st.file indices)) ?_ ?_ h rfl
  · intro headers s file hs
    exact hs
  · intro headers index progHdr s s' hs hloaded
    rw [hloaded.progBreak]
    exact hs

/-- The headers of the segments that `program_init` loads, with their indices. -/
def programHeaders (content : List Byte) : List (Nat × ElfProgramHeader) :=
  loadedHeaders (programHeader content) ⟨content, elfHeaderSize⟩
    (List.range (programHeader content).phnum)

/-- The highest end of a segment. -/
def segmentsEnd (content : List Byte) : Word := highestEnd 0 (programHeaders content)

/-- The program break that `heap_init` starts with. -/
def initialBreak (content : List Byte) : Word := (segmentsEnd content + 4096 * 16) &&& ~~~4095

theorem elfHeader_ok {content : List Byte} {hdr : ElfHeader} {file : HostFile}
    (h : elfHeader ⟨content, 0⟩ = .ok (some hdr, file)) :
    hdr = programHeader content ∧ file = ⟨content, elfHeaderSize⟩ := by
  refine ⟨elfHeader_eq h, ?_⟩
  obtain ⟨⟨done, bytes, file'⟩, hread, h⟩ := bind_eq_ok.mp h
  simp only [pure_eq_ok, Except.ok.injEq, Prod.mk.injEq] at h
  obtain ⟨hfound, rfl⟩ := h
  split at hfound
  next hvalid =>
    rw [hvalid.1] at hread
    obtain ⟨-, rfl, -⟩ := elfRead_ok hread
    rfl
  next => cases hfound

/-- The segments, the stack and the heap are registered one after the other. -/
theorem programInit_ok {alloc : Allocator} {heap heap' : HostHeap} {hart hart' : Hart}
    {memory memory' : VirtualMemory} {content : List Byte}
    (h : programInit alloc heap hart memory (some content) = .ok (heap', hart', memory')) :
    ∃ st memory₁,
      (List.range (programHeader content).phnum).foldlM
        (loadSegment alloc (programHeader content))
        ⟨⟨content, elfHeaderSize⟩, heap, memory, 0⟩ = .ok st ∧
      stackInit st.heap st.memory (alloc.place st.heap) = .ok (heap', memory₁) ∧
      heapInit memory₁ (segmentsEnd content) = .ok memory' ∧
      hart' = { hart.setRegister sp initialStackTop with pc := (programHeader content).entry } := by
  obtain ⟨bytes, hcontent, h⟩ := bind_eq_ok.mp h
  obtain ⟨⟨found, file⟩, hheader, h⟩ := bind_eq_ok.mp h
  obtain ⟨hdr, hfound, h⟩ := bind_eq_ok.mp h
  obtain ⟨st, hload, h⟩ := bind_eq_ok.mp h
  obtain ⟨⟨heap₁, memory₁⟩, hstack, h⟩ := bind_eq_ok.mp h
  obtain ⟨memory₂, hheap, h⟩ := bind_eq_ok.mp h
  cases h
  obtain rfl := Option.some.inj (require_eq_ok.mp hcontent)
  rw [require_eq_ok] at hfound
  subst hfound
  obtain ⟨rfl, rfl⟩ := elfHeader_ok hheader
  refine ⟨st, memory₁, hload, hstack, ?_, rfl⟩
  have hbreak := loadSegments_break hload
  rw [hbreak] at hheap
  exact hheap

/-! ## A program with one segment -/

/-- A read inside the file and inside the buffer succeeds. -/
theorem elfRead_full (file : HostFile) {n : Nat} {offset size : Int} (hoffset : 0 ≤ offset)
    (hsize : 0 ≤ size) (hroom : size.toNat ≤ n)
    (hfull : offset.toNat + size.toNat ≤ file.content.length) :
    elfRead file (some n) offset size =
      .ok (true, (file.content.drop offset.toNat).take size.toNat,
        ⟨file.content, offset.toNat + size.toNat⟩) := by
  have hseek : file.seek offset = ⟨file.content, offset.toNat⟩ := if_pos hoffset
  have hlength : ((file.content.drop offset.toNat).take size.toNat).length = size.toNat := by
    rw [List.length_take, List.length_drop]
    omega
  unfold elfRead
  simp only [hseek, if_neg (Int.not_lt.mpr hsize), hlength, if_pos hroom, decide_true, pure_eq_ok]

/-- The bytes of a program header. -/
def ElfProgramHeader.bytes (progHdr : ElfProgramHeader) : List Byte :=
  wordBytes progHdr.type ++ wordBytes progHdr.offset ++ wordBytes progHdr.vaddr ++ wordBytes 0 ++
  wordBytes progHdr.filesz ++ wordBytes progHdr.memsz ++ wordBytes progHdr.flags ++ wordBytes 0

theorem ofLeBytes_wordBytes (w : Word) : BitVec.ofNat 32 (ofLeBytes (leBytes 4 w.toNat)) = w := by
  rw [ofLeBytes_leBytes]
  apply BitVec.eq_of_toNat_eq
  rw [BitVec.toNat_ofNat]
  omega

theorem ElfProgramHeader.ofBytes_bytes (progHdr : ElfProgramHeader) :
    ElfProgramHeader.ofBytes progHdr.bytes = progHdr := by
  have hfields : ElfProgramHeader.ofBytes progHdr.bytes =
      ⟨BitVec.ofNat 32 (ofLeBytes (leBytes 4 progHdr.type.toNat)),
        BitVec.ofNat 32 (ofLeBytes (leBytes 4 progHdr.offset.toNat)),
        BitVec.ofNat 32 (ofLeBytes (leBytes 4 progHdr.vaddr.toNat)),
        BitVec.ofNat 32 (ofLeBytes (leBytes 4 progHdr.filesz.toNat)),
        BitVec.ofNat 32 (ofLeBytes (leBytes 4 progHdr.memsz.toNat)),
        BitVec.ofNat 32 (ofLeBytes (leBytes 4 progHdr.flags.toNat))⟩ := rfl
  simp only [hfields, ofLeBytes_wordBytes]

/-- The header of an ELF file with one program header right behind it. -/
def oneHeader : List Byte :=
  [0x7f, 0x45, 0x4c, 0x46, 1, 1, 1, 0, 0, 0, 0, 0, 0, 0, 0, 0, 2, 0, 0xf3, 0, 1, 0, 0, 0,
    0, 0, 0, 0, 52, 0, 0, 0, 0, 0, 0, 0, 0, 0, 0, 0, 52, 0, 32, 0, 1, 0, 0, 0, 0, 0, 0, 0]

/-- An ELF file with one segment, and some bytes behind its headers. -/
def segmentElf (progHdr : ElfProgramHeader) (data : List Byte) : List Byte :=
  oneHeader ++ (progHdr.bytes ++ data)

section

variable (progHdr : ElfProgramHeader) (data : List Byte)

theorem programHeader_segmentElf :
    programHeader (segmentElf progHdr data) = .ofBytes oneHeader := by
  have hheader : (segmentElf progHdr data).take elfHeaderSize = oneHeader :=
    List.take_left' rfl
  rw [programHeader, hheader]

theorem length_segmentElf : (segmentElf progHdr data).length = 84 + data.length := by
  have hbytes : (oneHeader ++ progHdr.bytes).length = 84 := rfl
  rw [segmentElf, ← List.append_assoc, List.length_append, hbytes]

theorem elfHeader_segmentElf :
    elfHeader ⟨segmentElf progHdr data, 0⟩ =
      .ok (some (.ofBytes oneHeader), ⟨segmentElf progHdr data, elfHeaderSize⟩) := by
  have hfull : (0 : Int).toNat + ((elfHeaderSize : Nat) : Int).toNat ≤
      (segmentElf progHdr data).length := by
    rw [length_segmentElf]
    exact Nat.le_trans (by decide) (Nat.le_add_right 84 data.length)
  have hread := elfRead_full ⟨segmentElf progHdr data, 0⟩ (n := elfHeaderSize)
    (Int.le_refl 0) (Int.natCast_nonneg elfHeaderSize) (Nat.le_refl _) hfull
  have hvalid : (ElfHeader.ofBytes oneHeader).isValid = true := by decide
  unfold elfHeader
  rw [hread, ok_bind]
  have hheader : ((segmentElf progHdr data).drop (0 : Int).toNat).take
      ((elfHeaderSize : Nat) : Int).toNat = oneHeader := List.take_left' rfl
  simp only [hheader, hvalid]
  rfl

theorem elfProgramHeader_segmentElf (file : HostFile)
    (hfile : file.content = segmentElf progHdr data) :
    elfProgramHeader file (.ofBytes oneHeader) 0 =
      .ok (some progHdr, ⟨segmentElf progHdr data, 84⟩) := by
  have hfull : (52 : Int).toNat + (32 : Int).toNat ≤ file.content.length := by
    rw [hfile, length_segmentElf]
    exact Nat.le_add_right 84 data.length
  have hread : elfRead file (some elfProgramHeaderSize) 52 32 = _ :=
    elfRead_full file (by decide) (by decide) (Nat.le_refl _) hfull
  have hdrop : (segmentElf progHdr data).drop (52 : Int).toNat = progHdr.bytes ++ data :=
    List.drop_left' rfl
  have htake : (progHdr.bytes ++ data).take (32 : Int).toNat = progHdr.bytes :=
    List.take_left' rfl
  rw [hfile, hdrop, htake] at hread
  have hindex : ¬ (ElfHeader.ofBytes oneHeader).phnum ≤ 0 := by decide
  have hentsize : (ElfHeader.ofBytes oneHeader).phentsize = 32 := by decide
  have hoffset : ((ElfHeader.ofBytes oneHeader).phoff +
      BitVec.ofNat 32 (0 * (ElfHeader.ofBytes oneHeader).phentsize)).toInt = 52 := by decide
  unfold elfProgramHeader
  rw [if_neg hindex]
  simp only [hoffset]
  rw [hentsize, check_true (show elfProgramHeaderSize = 32 from rfl), ok_bind]
  rw [show ((32 : Nat) : Int) = 32 from rfl, hread, ok_bind]
  simp only [ElfProgramHeader.ofBytes_bytes]
  rfl

/-- The segment is loaded to an empty table. -/
theorem loadProgramHeader_segmentElf {alloc : Allocator} {heap : HostHeap} {p : HostPointer}
    (stale : List PmRegion) (vmaHeap vmaStack : Option Nat) (position : Nat)
    (hplace : alloc.place heap = some p) (hoffset : 0 ≤ progHdr.offset.toInt)
    (hsize : 0 ≤ progHdr.filesz.toInt)
    (hfull : progHdr.offset.toInt.toNat + progHdr.filesz.toInt.toNat ≤ 84 + data.length)
    (hroom : progHdr.filesz.toInt.toNat ≤ progHdr.memsz.toNat)
    (hregion : progHdr.vaddr < progHdr.high) :
    ∃ file b, loadProgramHeader alloc
        ⟨⟨segmentElf progHdr data, position⟩, heap, ⟨⟨[], stale⟩, vmaHeap, vmaStack⟩, 0⟩ progHdr =
      .ok ⟨file, Function.update (Function.update heap p (some ⟨progHdr.memsz.toNat, fun _ => 0⟩))
          p (some b),
        ⟨⟨[progHdr.region (some p)], stale.tail⟩, vmaHeap, vmaStack⟩, progHdr.high⟩ := by
  have hread := elfRead_full ⟨segmentElf progHdr data, position⟩ hoffset hsize hroom (by
    rw [length_segmentElf]
    exact hfull)
  have horder : RegionsInOrder ([] ++ []) := regionsInOrder_nil
  have hregister : registerPmRegionOperation ⟨[], stale⟩ (progHdr.region (some p)) =
      .ok ⟨[progHdr.region (some p)], stale.tail⟩ :=
    registerPmRegionOperation_returns horder hregion (by simp) (by simp) (by decide)
  have hbreak : progHdr.vaddr + progHdr.memsz > 0 := by
    unfold ElfProgramHeader.high at hregion
    bv_omega
  have hstore : ∀ bytes : List Byte, bytes.length ≤ progHdr.memsz.toNat →
      ∃ b, HostHeap.store (Function.update heap p (some ⟨progHdr.memsz.toNat, fun _ => 0⟩)) p 0
        bytes = .ok (Function.update
          (Function.update heap p (some ⟨progHdr.memsz.toNat, fun _ => 0⟩)) p (some b)) := by
    intro bytes hbytes
    refine ⟨⟨progHdr.memsz.toNat, memcpy (fun _ => 0) 0 (fun i => bytes.getD i 0) bytes.length⟩, ?_⟩
    rw [HostHeap.store, Function.update_self]
    exact if_pos (by simpa using hbytes)
  obtain ⟨b, hb⟩ := hstore (((segmentElf progHdr data).drop progHdr.offset.toInt.toNat).take
    progHdr.filesz.toInt.toNat) (Nat.le_trans (List.length_take_le _ _) hroom)
  refine ⟨⟨segmentElf progHdr data, progHdr.offset.toInt.toNat + progHdr.filesz.toInt.toNat⟩, b, ?_⟩
  unfold loadProgramHeader
  simp only [hplace, HostHeap.preallocatePhysicalMemory, Option.map_some, hread, ok_bind,
    fillBuffer, hb]
  rw [check_true trivial, ok_bind]
  have hregister' : registerPmRegionOperation ⟨[], stale⟩
      ⟨progHdr.vaddr, progHdr.vaddr + progHdr.memsz, progHdr.flags, some p⟩ =
        .ok ⟨[progHdr.region (some p)], stale.tail⟩ := hregister
  simp only [hregister', ok_bind, if_pos hbreak]
  rfl

end

/-- A program with a page above the stack that starts with an instruction. -/
def highSegment : ElfProgramHeader := ⟨programTypeLoad, 84, 0xe0001000, 4, 0x1000, 5⟩
def highElf : List Byte := segmentElf highSegment [0x13, 0, 0, 0]

theorem loadSegments_highElf :
    ∃ file b, (List.range 1).foldlM (loadSegment (.lowest 2) (.ofBytes oneHeader))
        ⟨⟨highElf, elfHeaderSize⟩, fun _ => none, .empty, 0⟩ =
      .ok ⟨file, Function.update
          (Function.update (fun _ => none) 0 (some ⟨0x1000, fun _ => 0⟩)) 0 (some b),
        ⟨⟨[highSegment.region (some 0)], []⟩, none, none⟩, highSegment.high⟩ := by
  have hplace : (Allocator.lowest 2).place (fun _ => none) = some 0 := rfl
  obtain ⟨file, b, hload⟩ := loadProgramHeader_segmentElf highSegment [0x13, 0, 0, 0] [] none none
    84 hplace (by decide) (by decide) (by decide) (by decide) (by decide)
  refine ⟨file, b, ?_⟩
  have hheader := elfProgramHeader_segmentElf highSegment [0x13, 0, 0, 0]
    ⟨highElf, elfHeaderSize⟩ rfl
  have hround : loadSegment (.lowest 2) (.ofBytes oneHeader)
      ⟨⟨highElf, elfHeaderSize⟩, fun _ => none, .empty, 0⟩ 0 = loadProgramHeader (.lowest 2)
        ⟨⟨highElf, 84⟩, fun _ => none, .empty, 0⟩ highSegment := by
    unfold loadSegment
    simp only [hheader, ok_bind, require]
    have htype : highSegment.type = programTypeLoad := rfl
    rw [htype, if_neg (not_not.mpr rfl)]
    rfl
  rw [List.range_one, List.foldlM_cons, hround]
  exact congrArg (· >>= _) hload

/-- The table of the program: the stack, the segment and the heap. -/
def highTable : List PmRegion :=
  [stackRegion (some 1), highSegment.region (some 0), heapRegionAt 0xe0012000]

theorem highTable_inOrder : RegionsInOrder highTable := by
  refine ⟨?_, ?_⟩
  · simp only [highTable, List.mem_cons, List.not_mem_nil, or_false, forall_eq_or_imp, forall_eq]
    exact ⟨by decide, by decide, by decide⟩
  · simp only [highTable, List.pairwise_cons, List.mem_cons, List.not_mem_nil, or_false,
      forall_eq_or_imp, forall_eq, List.Pairwise.nil, false_imp_iff, implies_true, and_true]
    exact ⟨⟨by decide, by decide⟩, by decide⟩

theorem stackInit_highElf (heap : HostHeap) :
    stackInit heap ⟨⟨[highSegment.region (some 0)], []⟩, none, none⟩ (some 1) =
      .ok (Function.update heap 1 (some ⟨defaultStackSize, fun _ => 0⟩),
        ⟨⟨[stackRegion (some 1), highSegment.region (some 0)], []⟩, none, some 0⟩) := by
  have horder : RegionsInOrder ([] ++ [highSegment.region (some 0)]) :=
    highTable_inOrder.sublist (by simp [highTable])
  have horder' : RegionsInOrder [stackRegion (some 1), highSegment.region (some 0)] :=
    highTable_inOrder.sublist (by simp [highTable])
  have hregister : registerPmRegionOperation ⟨[highSegment.region (some 0)], []⟩
      (stackRegion (some 1)) = .ok ⟨[stackRegion (some 1), highSegment.region (some 0)], []⟩ :=
    registerPmRegionOperation_returns horder (by decide) (by simp)
      (by simp only [List.mem_singleton, forall_eq]; decide) (by decide)
  have hsearch : searchPmRegionCallback
      ⟨[stackRegion (some 1), highSegment.region (some 0)], []⟩
      (stackRegion (some 1)).addrLow = .ok (some 0) :=
    searchPmRegionCallback_of_contains horder' rfl ⟨BitVec.le_refl _, by decide⟩
  rw [stackRegion] at hregister hsearch
  simp only [stackInit, HostHeap.preallocatePhysicalMemory, hregister, ok_bind, hsearch]
  rfl

theorem heapInit_highElf :
    heapInit ⟨⟨[stackRegion (some 1), highSegment.region (some 0)], []⟩, none, some 0⟩
      highSegment.high = .ok ⟨⟨highTable, []⟩, some 2, some 0⟩ := by
  have horder : RegionsInOrder ([stackRegion (some 1), highSegment.region (some 0)] ++ []) :=
    highTable_inOrder.sublist (by simp [highTable])
  have hregister : registerPmRegionOperation
      ⟨[stackRegion (some 1), highSegment.region (some 0)], []⟩ (heapRegionAt 0xe0012000) =
        .ok ⟨highTable, []⟩ :=
    registerPmRegionOperation_returns horder (by decide)
      (by simp only [List.mem_cons, List.not_mem_nil, or_false, forall_eq_or_imp, forall_eq]
          exact ⟨by decide, by decide⟩)
      (by simp) (by decide)
  have hbreak : (highSegment.high + 4096 * 16) &&& ~~~4095 = 0xe0012000 := by decide
  have hsearch : searchPmRegionCallback ⟨highTable, []⟩ (0xe0012000 - 1) = .ok (some 2) :=
    searchPmRegionCallback_of_contains highTable_inOrder rfl ⟨by decide, by decide⟩
  rw [heapRegionAt] at hregister
  simp only [heapInit, hbreak, hregister, ok_bind, hsearch]
  rfl

theorem programInit_highElf (hart : Hart) :
    ∃ heap, programInit (.lowest 2) (fun _ => none) hart .empty (some highElf) =
      .ok (heap, { hart.setRegister sp initialStackTop with pc := 0 },
        ⟨⟨highTable, []⟩, some 2, some 0⟩) := by
  obtain ⟨file, b, hload⟩ := loadSegments_highElf
  have hphnum : (ElfHeader.ofBytes oneHeader).phnum = 1 := by decide
  have hplace : (Allocator.lowest 2).place (Function.update
      (Function.update (fun _ => none) 0 (some ⟨0x1000, fun _ => 0⟩)) 0 (some b)) = some 1 := rfl
  have hheader : elfHeader ⟨highElf, 0⟩ =
      .ok (some (.ofBytes oneHeader), ⟨highElf, elfHeaderSize⟩) :=
    elfHeader_segmentElf highSegment [0x13, 0, 0, 0]
  have hentry : (ElfHeader.ofBytes oneHeader).entry = 0 := by decide
  refine ⟨Function.update (Function.update
    (Function.update (fun _ => none) 0 (some ⟨0x1000, fun _ => 0⟩)) 0 (some b)) 1
      (some ⟨defaultStackSize, fun _ => 0⟩), ?_⟩
  simp only [programInit, require, ok_bind, hheader, hphnum, hload, hplace, stackInit_highElf,
    heapInit_highElf, hentry]
  rfl

end Hyrule
