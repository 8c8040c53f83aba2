import Hyrule.Cpu.Hart
import Hyrule.Fs.Path
import Hyrule.Memory.Buffers
import Mathlib.Data.BitVec

/-!
# Loading a program

`elf_util.c`, and `program_init` and `env_setup` of `app.c`.  A program is a host
file.  Its segments are read into new regions, behind them come the stack and the
heap, and the arguments and the environment are pushed onto the stack.

The source pushes with a host pointer that moves down in the buffer of the stack.
It is an offset here, and a push below the buffer is an access outside it.

`programInit_transfer` and `envSetup_transfer` say that loading touches no buffer
of another memory.  `envSetup_hart` gives the stack pointer that is left.
-/

namespace Hyrule

open Lib Lib.Result

/-! ## Host files -/

/-- An open host file. -/
structure HostFile where
  content : List Byte
  position : Nat

/-- `lseek` with `SEEK_SET`.  A negative offset is refused. -/
def HostFile.seek (file : HostFile) (offset : Int) : HostFile :=
  if 0 ≤ offset then { file with position := offset.toNat } else file

/-- `elf_read`, to a buffer of `room` bytes or to a null pointer: whether it succeeds,
the bytes it stores, and the file after it.  The host refuses to read a negative size
and to store to a null pointer, and `read` then returns `-1`. -/
def elfRead (file : HostFile) (room : Option Nat) (offset size : Int) :
    Result (Bool × List Byte × HostFile) :=
  let file := file.seek offset
  let bytes := (file.content.drop file.position).take size.toNat
  if size < 0 then return (size = -1, [], file)
  else
    match room with
    | none => return (bytes = [] ∧ size = 0, [], file)
    | some n =>
        if bytes.length ≤ n then
          return (bytes.length = size.toNat, bytes,
            { file with position := file.position + bytes.length })
        else throw .outOfBounds

/-! ## Headers -/

/-- The `uint16_t` at an offset. -/
def fieldHalf (bytes : List Byte) (offset : Nat) : Nat := ofLeBytes ((bytes.drop offset).take 2)

/-- The `uint32_t` at an offset. -/
def fieldWord (bytes : List Byte) (offset : Nat) : Word :=
  BitVec.ofNat 32 (ofLeBytes ((bytes.drop offset).take 4))

/-- `struct elf32_elf_header`. -/
structure ElfHeader where
  ident : List Byte
  machine : Nat
  entry : Word
  phoff : Word
  phentsize : Nat
  phnum : Nat

/-- `sizeof(struct elf32_elf_header)`. -/
def elfHeaderSize : Nat := 52

def ElfHeader.ofBytes (bytes : List Byte) : ElfHeader where
  ident := bytes.take 16
  machine := fieldHalf bytes 18
  entry := fieldWord bytes 24
  phoff := fieldWord bytes 28
  phentsize := fieldHalf bytes 42
  phnum := fieldHalf bytes 44

/-- The format validation of `elf_header`. -/
def ElfHeader.isValid (hdr : ElfHeader) : Bool :=
  fieldWord hdr.ident 0 = 0x464c457f ∧ hdr.ident.getD 4 0 = 1 ∧ hdr.machine = 0xf3

/-- `elf_header`: the header, if the return code is zero. -/
def elfHeader (file : HostFile) : Result (Option ElfHeader × HostFile) := do
  let (done, bytes, file) ← elfRead file (some elfHeaderSize) 0 elfHeaderSize
  let hdr := ElfHeader.ofBytes bytes
  return (if done ∧ hdr.isValid then some hdr else none, file)

/-- `struct elf32_program_header`. -/
structure ElfProgramHeader where
  type : Word
  offset : Word
  vaddr : Word
  filesz : Word
  memsz : Word
  flags : Word

/-- `sizeof(struct elf32_program_header)`. -/
def elfProgramHeaderSize : Nat := 32

def ElfProgramHeader.ofBytes (bytes : List Byte) : ElfProgramHeader where
  type := fieldWord bytes 0
  offset := fieldWord bytes 4
  vaddr := fieldWord bytes 8
  filesz := fieldWord bytes 16
  memsz := fieldWord bytes 20
  flags := fieldWord bytes 24

/-- `elf_program_header`: the header, if the return code is zero. -/
def elfProgramHeader (file : HostFile) (hdr : ElfHeader) (index : Nat) :
    Result (Option ElfProgramHeader × HostFile) :=
  if hdr.phnum ≤ index then return (none, file)
  else do
    check (elfProgramHeaderSize = hdr.phentsize)
    let offset := hdr.phoff + BitVec.ofNat 32 (index * hdr.phentsize)
    let (done, bytes, file) ← elfRead file (some elfProgramHeaderSize) offset.toInt hdr.phentsize
    return (if done then some (.ofBytes bytes) else none, file)

/-! ## Segments -/

/-- `PROGRAM_TYPE_LOAD`. -/
def programTypeLoad : Word := 1

/-- What the loop of `program_init` changes. -/
structure Loading where
  file : HostFile
  heap : HostHeap
  memory : VirtualMemory
  progBreak : Word

/-- The bytes that `elf_read` has stored to a new buffer. -/
def fillBuffer (heap : HostHeap) (hostBase : Option HostPointer) (bytes : List Byte) :
    Result HostHeap :=
  match hostBase with
  | none => return heap
  | some p => heap.store p 0 bytes

/-- The part of the loop body for a segment that is loaded. -/
def loadProgramHeader (alloc : Allocator) (st : Loading) (progHdr : ElfProgramHeader) :
    Result Loading := do
  let (heap, hostBase) :=
    st.heap.preallocatePhysicalMemory progHdr.memsz.toNat (alloc.place st.heap)
  let (done, bytes, file) ← elfRead st.file (hostBase.map fun _ => progHdr.memsz.toNat)
    progHdr.offset.toInt progHdr.filesz.toInt
  check (done = true)
  let heap ← fillBuffer heap hostBase bytes
  let pmr : PmRegion := ⟨progHdr.vaddr, progHdr.vaddr + progHdr.memsz, progHdr.flags, hostBase⟩
  let regions ← registerPmRegionOperation st.memory.regions pmr
  return ⟨file, heap, { st.memory with regions },
    if pmr.addrHigh > st.progBreak then pmr.addrHigh else st.progBreak⟩

/-- The loop body of `program_init`. -/
def loadSegment (alloc : Allocator) (hdr : ElfHeader) (st : Loading) (index : Nat) :
    Result Loading := do
  let (progHdr, file) ← elfProgramHeader st.file hdr index
  let progHdr ← require progHdr
  if progHdr.type ≠ programTypeLoad then return { st with file }
  else loadProgramHeader alloc { st with file } progHdr

/-- The register `sp`. -/
def sp : RegisterIndex := 2

/-- The register `a0`. -/
def a0 : RegisterIndex := 10

/-- `sp` after `stack_init`. -/
def initialStackTop : Word := defaultStackCeiling - 0x100

/-- `program_init` on a task that owns its memory, with the content of the file if it
can be opened. -/
def programInit (alloc : Allocator) (heap : HostHeap) (hart : Hart) (memory : VirtualMemory)
    (content : Option (List Byte)) : Result (HostHeap × Hart × VirtualMemory) := do
  let content ← require content
  let (hdr, file) ← elfHeader ⟨content, 0⟩
  let hdr ← require hdr
  let st ← (List.range hdr.phnum).foldlM (loadSegment alloc hdr) ⟨file, heap, memory, 0⟩
  let (heap, memory) ← stackInit st.heap st.memory (alloc.place st.heap)
  let memory ← heapInit memory st.progBreak
  return (heap, { hart.setRegister sp initialStackTop with pc := hdr.entry }, memory)

/-! ## Arguments and environment -/

/-- `MAX_NR_ENVP`. -/
def maxNrEnvp : Nat := 128

/-- `MAX_NR_ARGV`. -/
def maxNrArgv : Nat := 128

/-- `user_world_pointer`, for a task that owns its memory: a buffer and an offset. -/
def userWorldPointer (t : RegionTable) (uaddress : Word) : Result (HostPointer × Nat) := do
  match ← searchPmRegionCallback t uaddress with
  | none => throw .assertion
  | some i =>
      let pmr ← t.slot i
      return (← deref pmr.hostBase, (uaddress - pmr.addrLow).toNat)

/-- The stack while it is built. -/
structure StackTop where
  heap : HostHeap
  /-- The place of `stack_top_upointer` in its buffer. -/
  offset : Nat
  /-- `stack_top_gap`. -/
  gap : Word

/-- `PUSH_BLOB`. -/
def pushBlob (base : HostPointer) (top : StackTop) (blob : List Byte) : Result StackTop :=
  if blob.length ≤ top.offset then do
    let offset := top.offset - blob.length
    return ⟨← top.heap.store base offset blob, offset, top.gap + BitVec.ofNat 32 blob.length⟩
  else throw .outOfBounds

/-- `LOCAL_ALIGN(16)`. -/
def localAlign (stackTop : Word) (top : StackTop) : Result StackTop :=
  let position := stackTop - top.gap
  let skipped := position - (position &&& ~~~15)
  if skipped.toNat ≤ top.offset then
    return { top with offset := top.offset - skipped.toNat, gap := top.gap + skipped }
  else throw .outOfBounds

/-- A loop that pushes strings: the stack, and the guest addresses of the strings. -/
def pushStrings (base : HostPointer) (stackTop : Word) :
    StackTop → List CString → Result (StackTop × List Word)
  | top, [] => return (top, [])
  | top, string :: strings => do
      let top ← pushBlob base top (string.bytes ++ [nul])
      let (top', pointers) ← pushStrings base stackTop top strings
      return (top', (stackTop - top.gap) :: pointers)

/-- The bytes of a `uint32_t`. -/
def wordBytes (w : Word) : List Byte := leBytes 4 w.toNat

/-- An entry of `aux_vector`. -/
def auxBytes (type value : Word) : List Byte := wordBytes type ++ wordBytes value

/-- The blobs that are pushed behind the strings, the first one first. -/
def tableBlobs (stackTop pc : Word) (argPointer envPointer : List Word) : List (List Byte) :=
  [auxBytes 0 0, auxBytes 9 pc, auxBytes 25 stackTop] ++
  (0 :: envPointer.reverse).map wordBytes ++
  (0 :: argPointer.reverse).map wordBytes ++
  [wordBytes (BitVec.ofNat 32 argPointer.length)]

/-- `env_setup` on a task that owns its memory. -/
def envSetup (heap : HostHeap) (hart : Hart) (memory : VirtualMemory)
    (argv envp : List CString) : Result (HostHeap × Hart) := do
  let stackTop := hart.registers sp
  let (base, offset) ← userWorldPointer memory.regions stackTop
  let (top, envPointer) ← pushStrings base stackTop ⟨heap, offset, 0⟩ (envp.take maxNrEnvp)
  let (top, argPointer) ← pushStrings base stackTop top (argv.take maxNrArgv)
  let top ← localAlign stackTop top
  let top ← (tableBlobs stackTop hart.pc argPointer envPointer).foldlM (pushBlob base) top
  return (top.heap, hart.setRegister sp (stackTop - top.gap))

/-! ## The stack pointer -/

/-- The number of bytes of some strings with their zeros. -/
def stringsSize (strings : List CString) : Nat := (strings.map fun s => s.length + 1).sum

/-- The stack pointer that `env_setup` builds from a stack top. -/
def envStackPointer (stackTop : Word) (argv envp : List CString) : Word :=
  let strings := stringsSize (envp.take maxNrEnvp) + stringsSize (argv.take maxNrArgv)
  let pointers := (envp.take maxNrEnvp).length + (argv.take maxNrArgv).length
  ((stackTop - BitVec.ofNat 32 strings) &&& ~~~15) - BitVec.ofNat 32 (36 + 4 * pointers)

theorem pushBlob_gap {base : HostPointer} {top top' : StackTop} {blob : List Byte}
    (h : pushBlob base top blob = .ok top') : top'.gap = top.gap + BitVec.ofNat 32 blob.length := by
  unfold pushBlob at h
  split at h
  next =>
    obtain ⟨heap, -, h⟩ := bind_eq_ok.mp h
    cases h
    rfl
  next => cases h

theorem pushBlobs_gap {base : HostPointer} {blobs : List (List Byte)} {top top' : StackTop}
    (h : blobs.foldlM (pushBlob base) top = .ok top') :
    top'.gap = top.gap + BitVec.ofNat 32 blobs.flatten.length := by
  induction blobs generalizing top with
  | nil =>
    obtain rfl : top = top' := by simpa using h
    simp
  | cons blob blobs ih =>
    rw [List.foldlM_cons] at h
    obtain ⟨top₁, hpush, h⟩ := bind_eq_ok.mp h
    rw [ih h, pushBlob_gap hpush, List.flatten_cons, List.length_append, BitVec.ofNat_add,
      BitVec.add_assoc]

theorem pushStrings_gap {base : HostPointer} {stackTop : Word} {strings : List CString}
    {top top' : StackTop} {pointers : List Word}
    (h : pushStrings base stackTop top strings = .ok (top', pointers)) :
    top'.gap = top.gap + BitVec.ofNat 32 (stringsSize strings) ∧
      pointers.length = strings.length := by
  induction strings generalizing top pointers with
  | nil =>
    obtain ⟨rfl, rfl⟩ : top = top' ∧ [] = pointers := by simpa [pushStrings] using h
    simp [stringsSize]
  | cons string strings ih =>
    obtain ⟨top₁, hpush, h⟩ := bind_eq_ok.mp h
    obtain ⟨⟨top₂, pointers₂⟩, hrest, h⟩ := bind_eq_ok.mp h
    cases h
    obtain ⟨hgap, hlength⟩ := ih hrest
    constructor
    · rw [hgap, pushBlob_gap hpush, List.length_append, List.length_singleton, BitVec.add_assoc,
        ← BitVec.ofNat_add]
      simp [stringsSize, CString.length]
    · simp [hlength]

theorem localAlign_gap {stackTop : Word} {top top' : StackTop}
    (h : localAlign stackTop top = .ok top') :
    stackTop - top'.gap = (stackTop - top.gap) &&& ~~~15 := by
  unfold localAlign at h
  simp only at h
  split at h
  next =>
    cases h
    simp only
    generalize (stackTop - top.gap) &&& ~~~15 = aligned
    bv_omega
  next => cases h

@[simp] theorem length_wordBytes (w : Word) : (wordBytes w).length = 4 := length_leBytes 4 _

theorem length_flatten_wordBytes (words : List Word) :
    (words.map wordBytes).flatten.length = 4 * words.length := by
  induction words with
  | nil => rfl
  | cons w words ih =>
    rw [List.map_cons, List.flatten_cons, List.length_append, ih, List.length_cons,
      length_wordBytes]
    omega

theorem length_tableBlobs (stackTop pc : Word) (argPointer envPointer : List Word) :
    (tableBlobs stackTop pc argPointer envPointer).flatten.length =
      36 + 4 * (envPointer.length + argPointer.length) := by
  simp only [tableBlobs, List.flatten_append, List.length_append, length_flatten_wordBytes,
    List.length_cons, List.length_reverse, List.flatten_cons, List.flatten_nil, List.length_nil,
    auxBytes, length_wordBytes]
  omega

/-- `env_setup` only moves the stack pointer. -/
theorem envSetup_hart {heap heap' : HostHeap} {hart hart' : Hart} {memory : VirtualMemory}
    {argv envp : List CString} (h : envSetup heap hart memory argv envp = .ok (heap', hart')) :
    hart' = hart.setRegister sp (envStackPointer (hart.registers sp) argv envp) := by
  obtain ⟨⟨base, offset⟩, -, h⟩ := bind_eq_ok.mp h
  obtain ⟨⟨top₁, envPointer⟩, henv, h⟩ := bind_eq_ok.mp h
  obtain ⟨⟨top₂, argPointer⟩, harg, h⟩ := bind_eq_ok.mp h
  obtain ⟨top₃, halign, h⟩ := bind_eq_ok.mp h
  obtain ⟨top₄, htables, h⟩ := bind_eq_ok.mp h
  cases h
  obtain ⟨hgap₁, hlength₁⟩ := pushStrings_gap henv
  obtain ⟨hgap₂, hlength₂⟩ := pushStrings_gap harg
  have hgap₃ := localAlign_gap halign
  have hgap₄ := pushBlobs_gap htables
  rw [length_tableBlobs, hlength₁, hlength₂] at hgap₄
  replace hgap₁ := hgap₁.trans (BitVec.zero_add _)
  rw [hgap₂, hgap₁, ← BitVec.ofNat_add] at hgap₃
  congr 1
  rw [envStackPointer, ← hgap₃, hgap₄]
  exact sub_add_eq_sub_sub _ _ _

/-! ## What loading does to the buffers -/

variable {P : Prop}

theorem fillBuffer_transfer {heap heap' : HostHeap} {r : PmRegion} {bytes : List Byte}
    (own : List (HostPointer × Nat)) (h : fillBuffer heap r.hostBase bytes = .ok heap') :
    Transfer Buffer.size P heap (r.owned ++ own) heap' (r.owned ++ own) := by
  cases hbase : r.hostBase with
  | none =>
    rw [hbase] at h
    cases h
    exact .refl _ _
  | some p =>
    rw [hbase] at h
    refine store_transfer ?_ h
    rw [PmRegion.owned, hbase]
    exact List.mem_cons_self

theorem loadProgramHeader_transfer {alloc : Allocator} {st st' : Loading}
    {progHdr : ElfProgramHeader} (h : loadProgramHeader alloc st progHdr = .ok st') :
    Transfer Buffer.size P st.heap st.memory.bases st'.heap st'.memory.bases := by
  obtain ⟨⟨done, bytes, file⟩, -, h⟩ := bind_eq_ok.mp h
  obtain ⟨-, -, h⟩ := bind_eq_ok.mp h
  obtain ⟨heap, hfill, h⟩ := bind_eq_ok.mp h
  obtain ⟨regions, hregister, h⟩ := bind_eq_ok.mp h
  cases h
  have halloc := preallocate_transfer (P := P) alloc st.heap st.memory.bases
    (r := ⟨progHdr.vaddr, progHdr.vaddr + progHdr.memsz, progHdr.flags, _⟩) rfl
    (size_of_length _ _ _ _)
  exact (halloc.trans (fillBuffer_transfer _ hfill)).trans
    (.perm (registerPmRegionOperation_bases hregister).symm)

theorem loadSegment_transfer {alloc : Allocator} {hdr : ElfHeader} {st st' : Loading}
    {index : Nat} (h : loadSegment alloc hdr st index = .ok st') :
    Transfer Buffer.size P st.heap st.memory.bases st'.heap st'.memory.bases := by
  obtain ⟨⟨progHdr, file⟩, -, h⟩ := bind_eq_ok.mp h
  obtain ⟨progHdr, -, h⟩ := bind_eq_ok.mp h
  split at h
  next =>
    cases h
    exact .refl _ _
  next =>
    have htransfer := loadProgramHeader_transfer (P := P) h
    exact htransfer

theorem loadSegments_transfer {alloc : Allocator} {hdr : ElfHeader} {indices : List Nat}
    {st st' : Loading} (h : indices.foldlM (loadSegment alloc hdr) st = .ok st') :
    Transfer Buffer.size P st.heap st.memory.bases st'.heap st'.memory.bases := by
  induction indices generalizing st with
  | nil =>
    obtain rfl : st = st' := by simpa using h
    exact .refl _ _
  | cons index indices ih =>
    rw [List.foldlM_cons] at h
    obtain ⟨st₁, hload, h⟩ := bind_eq_ok.mp h
    exact (loadSegment_transfer hload).trans (ih h)

/-- The header of a file that `program_init` accepts. -/
def programHeader (content : List Byte) : ElfHeader := .ofBytes (content.take elfHeaderSize)

theorem elfHeader_eq {content : List Byte} {hdr : ElfHeader} {file : HostFile}
    (h : elfHeader ⟨content, 0⟩ = .ok (some hdr, file)) : hdr = programHeader content := by
  obtain ⟨⟨done, bytes, file'⟩, hread, h⟩ := bind_eq_ok.mp h
  have hbytes : bytes = content.take elfHeaderSize := by
    have hseek : HostFile.seek ⟨content, 0⟩ 0 = ⟨content, 0⟩ := rfl
    have hsize : ¬ ((elfHeaderSize : Nat) : Int) < 0 := by decide
    rw [elfRead, hseek] at hread
    simp only [if_neg hsize, List.drop_zero, Int.toNat_natCast] at hread
    split at hread
    next =>
      cases hread
      rfl
    next => cases hread
  simp only [pure_eq_ok, Except.ok.injEq, Prod.mk.injEq] at h
  obtain ⟨h, -⟩ := h
  split at h
  next => rw [← Option.some.inj h, hbytes, programHeader]
  next => cases h

/-- `program_init` leaves the entry point and the first stack pointer. -/
theorem programInit_hart {alloc : Allocator} {heap heap' : HostHeap} {hart hart' : Hart}
    {memory memory' : VirtualMemory} {content : Option (List Byte)}
    (h : programInit alloc heap hart memory content = .ok (heap', hart', memory')) :
    ∃ bytes, content = some bytes ∧
      hart' = { hart.setRegister sp initialStackTop with pc := (programHeader bytes).entry } := by
  obtain ⟨bytes, hcontent, h⟩ := bind_eq_ok.mp h
  obtain ⟨⟨found, file⟩, hheader, h⟩ := bind_eq_ok.mp h
  obtain ⟨hdr, hfound, h⟩ := bind_eq_ok.mp h
  obtain ⟨st, -, h⟩ := bind_eq_ok.mp h
  obtain ⟨⟨heap₁, memory₁⟩, -, h⟩ := bind_eq_ok.mp h
  obtain ⟨memory₂, -, h⟩ := bind_eq_ok.mp h
  cases h
  rw [require_eq_ok] at hcontent hfound
  subst hfound
  exact ⟨bytes, hcontent, by rw [elfHeader_eq hheader]⟩

theorem programInit_transfer {alloc : Allocator} {heap heap' : HostHeap} {hart hart' : Hart}
    {memory memory' : VirtualMemory} {content : Option (List Byte)}
    (h : programInit alloc heap hart memory content = .ok (heap', hart', memory')) :
    Transfer Buffer.size P heap memory.bases heap' memory'.bases := by
  obtain ⟨bytes, -, h⟩ := bind_eq_ok.mp h
  obtain ⟨⟨found, file⟩, -, h⟩ := bind_eq_ok.mp h
  obtain ⟨hdr, -, h⟩ := bind_eq_ok.mp h
  obtain ⟨st, hload, h⟩ := bind_eq_ok.mp h
  obtain ⟨⟨heap₁, memory₁⟩, hstack, h⟩ := bind_eq_ok.mp h
  obtain ⟨memory₂, hheap, h⟩ := bind_eq_ok.mp h
  cases h
  have hsegments := loadSegments_transfer (P := P) hload
  exact (hsegments.trans (stackInit_transfer hstack)).trans (heapInit_transfer hheap)

theorem pushBlob_transfer {base : HostPointer} {own : List (HostPointer × Nat)}
    (hbase : base ∈ pointers own) {top top' : StackTop} {blob : List Byte}
    (h : pushBlob base top blob = .ok top') :
    Transfer Buffer.size P top.heap own top'.heap own := by
  unfold pushBlob at h
  split at h
  next =>
    obtain ⟨heap, hstore, h⟩ := bind_eq_ok.mp h
    cases h
    exact store_transfer hbase hstore
  next => cases h

theorem pushBlobs_transfer {base : HostPointer} {own : List (HostPointer × Nat)}
    (hbase : base ∈ pointers own) {blobs : List (List Byte)} {top top' : StackTop}
    (h : blobs.foldlM (pushBlob base) top = .ok top') :
    Transfer Buffer.size P top.heap own top'.heap own := by
  induction blobs generalizing top with
  | nil =>
    obtain rfl : top = top' := by simpa using h
    exact .refl _ _
  | cons blob blobs ih =>
    rw [List.foldlM_cons] at h
    obtain ⟨top₁, hpush, h⟩ := bind_eq_ok.mp h
    exact (pushBlob_transfer hbase hpush).trans (ih h)

theorem pushStrings_transfer {base : HostPointer} {own : List (HostPointer × Nat)}
    (hbase : base ∈ pointers own) {stackTop : Word} {strings : List CString}
    {top top' : StackTop} {addresses : List Word}
    (h : pushStrings base stackTop top strings = .ok (top', addresses)) :
    Transfer Buffer.size P top.heap own top'.heap own := by
  induction strings generalizing top addresses with
  | nil =>
    obtain ⟨rfl, rfl⟩ : top = top' ∧ [] = addresses := by simpa [pushStrings] using h
    exact .refl _ _
  | cons string strings ih =>
    obtain ⟨top₁, hpush, h⟩ := bind_eq_ok.mp h
    obtain ⟨⟨top₂, addresses₂⟩, hrest, h⟩ := bind_eq_ok.mp h
    cases h
    exact (pushBlob_transfer hbase hpush).trans (ih hrest)

theorem localAlign_heap {stackTop : Word} {top top' : StackTop}
    (h : localAlign stackTop top = .ok top') : top'.heap = top.heap := by
  unfold localAlign at h
  simp only at h
  split at h
  next =>
    cases h
    rfl
  next => cases h

/-- A guest pointer goes to a buffer of the memory. -/
theorem userWorldPointer_mem {memory : VirtualMemory} {uaddress : Word} {base : HostPointer}
    {offset : Nat} (h : userWorldPointer memory.regions uaddress = .ok (base, offset)) :
    base ∈ pointers memory.bases := by
  obtain ⟨found, hsearch, h⟩ := bind_eq_ok.mp h
  cases found with
  | none => cases h
  | some i =>
    obtain ⟨r, hr, h⟩ := bind_eq_ok.mp h
    obtain ⟨base', hbase, h⟩ := bind_eq_ok.mp h
    cases h
    have hmem := List.mem_of_getElem? (searchPmRegionCallback_slot hsearch hr)
    exact mem_pointers_bases.mpr ⟨r, hmem, deref_eq_ok.mp hbase⟩

theorem envSetup_transfer {heap heap' : HostHeap} {hart hart' : Hart} {memory : VirtualMemory}
    {argv envp : List CString} (h : envSetup heap hart memory argv envp = .ok (heap', hart')) :
    Transfer Buffer.size P heap memory.bases heap' memory.bases := by
  obtain ⟨⟨base, offset⟩, hpointer, h⟩ := bind_eq_ok.mp h
  obtain ⟨⟨top₁, envPointer⟩, henv, h⟩ := bind_eq_ok.mp h
  obtain ⟨⟨top₂, argPointer⟩, harg, h⟩ := bind_eq_ok.mp h
  obtain ⟨top₃, halign, h⟩ := bind_eq_ok.mp h
  obtain ⟨top₄, htables, h⟩ := bind_eq_ok.mp h
  cases h
  have hbase := userWorldPointer_mem hpointer
  have htables' := pushBlobs_transfer (P := P) hbase htables
  rw [localAlign_heap halign] at htables'
  have hstrings :=
    (pushStrings_transfer (P := P) hbase henv).trans (pushStrings_transfer hbase harg)
  exact hstrings.trans htables'

/-! ## The table stays in order -/

theorem loadSegment_inOrder {alloc : Allocator} {hdr : ElfHeader} {st st' : Loading} {index : Nat}
    (horder : RegionsInOrder st.memory.regions.pmrOps)
    (h : loadSegment alloc hdr st index = .ok st') : RegionsInOrder st'.memory.regions.pmrOps := by
  obtain ⟨⟨progHdr, file⟩, -, h⟩ := bind_eq_ok.mp h
  obtain ⟨progHdr, -, h⟩ := bind_eq_ok.mp h
  split at h
  next =>
    cases h
    exact horder
  next =>
    obtain ⟨⟨done, bytes, file⟩, -, h⟩ := bind_eq_ok.mp h
    obtain ⟨-, -, h⟩ := bind_eq_ok.mp h
    obtain ⟨heap, -, h⟩ := bind_eq_ok.mp h
    obtain ⟨regions, hregister, h⟩ := bind_eq_ok.mp h
    cases h
    exact horder.register hregister

theorem loadSegments_inOrder {alloc : Allocator} {hdr : ElfHeader} {indices : List Nat}
    {st st' : Loading} (horder : RegionsInOrder st.memory.regions.pmrOps)
    (h : indices.foldlM (loadSegment alloc hdr) st = .ok st') :
    RegionsInOrder st'.memory.regions.pmrOps := by
  induction indices generalizing st with
  | nil =>
    obtain rfl : st = st' := by simpa using h
    exact horder
  | cons index indices ih =>
    rw [List.foldlM_cons] at h
    obtain ⟨st₁, hload, h⟩ := bind_eq_ok.mp h
    exact ih (loadSegment_inOrder horder hload) h

theorem programInit_inOrder {alloc : Allocator} {heap heap' : HostHeap} {hart hart' : Hart}
    {memory memory' : VirtualMemory} {content : Option (List Byte)}
    (horder : RegionsInOrder memory.regions.pmrOps)
    (h : programInit alloc heap hart memory content = .ok (heap', hart', memory')) :
    RegionsInOrder memory'.regions.pmrOps := by
  obtain ⟨bytes, -, h⟩ := bind_eq_ok.mp h
  obtain ⟨⟨found, file⟩, -, h⟩ := bind_eq_ok.mp h
  obtain ⟨hdr, -, h⟩ := bind_eq_ok.mp h
  obtain ⟨st, hload, h⟩ := bind_eq_ok.mp h
  obtain ⟨⟨heap₁, memory₁⟩, hstack, h⟩ := bind_eq_ok.mp h
  obtain ⟨memory₂, hheap, h⟩ := bind_eq_ok.mp h
  cases h
  exact heapInit_inOrder (stackInit_inOrder (loadSegments_inOrder horder hload) hstack) hheap

/-! ## What pushing leaves on the stack -/

/-- A blob that fits is stored right below the top, and what lies above stays. -/
theorem pushBlob_returns {base : HostPointer} {top : StackTop} {b : Buffer} {blob : List Byte}
    (hb : top.heap base = some b) (hsize : top.offset ≤ b.size) (hlen : blob.length ≤ top.offset) :
    ∃ top' b', pushBlob base top blob = .ok top' ∧ top'.offset = top.offset - blob.length ∧
      top'.heap base = some b' ∧ b'.size = b.size ∧
      (∀ i, top.offset ≤ i → b'.byte i = b.byte i) ∧
      ∀ i < blob.length, blob[i]? = some (b'.byte (top'.offset + i)) := by
  have hstore : top.heap.store base (top.offset - blob.length) blob =
      .ok (Function.update top.heap base (some ⟨b.size, memcpy b.byte (top.offset - blob.length)
        (fun i => blob.getD i 0) blob.length⟩)) := by
    rw [HostHeap.store, hb]
    exact if_pos (by omega)
  rw [pushBlob, if_pos hlen]
  simp only [hstore, ok_bind]
  refine ⟨_, _, rfl, rfl, Function.update_self _ _ _, rfl, ?_, ?_⟩
  · intro i hi
    have habove : top.offset - blob.length + blob.length ≤ i := by omega
    simp only [memcpy_of_ge habove]
  · intro i hi
    simp only [memcpy_add hi]
    simp [hi]

/-- Blobs that fit lie on the stack one above the other, the last one lowest. -/
theorem pushBlobs_returns {base : HostPointer} (blobs : List (List Byte)) (top : StackTop)
    {b : Buffer} (hb : top.heap base = some b) (hsize : top.offset ≤ b.size)
    (hlen : blobs.flatten.length ≤ top.offset) :
    ∃ top' b', blobs.foldlM (pushBlob base) top = .ok top' ∧
      top'.offset = top.offset - blobs.flatten.length ∧
      top'.heap base = some b' ∧ b'.size = b.size ∧
      (∀ i, top.offset ≤ i → b'.byte i = b.byte i) ∧
      ∀ i < blobs.flatten.length,
        blobs.reverse.flatten[i]? = some (b'.byte (top'.offset + i)) := by
  induction blobs generalizing top b with
  | nil => exact ⟨top, b, rfl, by simp, hb, rfl, fun _ _ => rfl, by simp⟩
  | cons blob blobs ih =>
    rw [List.flatten_cons, List.length_append] at hlen ⊢
    obtain ⟨top₁, b₁, hpush, hoffset₁, hb₁, hsize₁, habove₁, hbytes₁⟩ :=
      pushBlob_returns hb hsize (by omega : blob.length ≤ top.offset)
    obtain ⟨top₂, b₂, hrest, hoffset₂, hb₂, hsize₂, habove₂, hbytes₂⟩ :=
      ih top₁ hb₁ (by omega) (by omega)
    have hlength : blobs.reverse.flatten.length = blobs.flatten.length :=
      (List.reverse_perm blobs).flatten.length_eq
    refine ⟨top₂, b₂, ?_, by omega, hb₂, by omega, ?_, ?_⟩
    · rw [List.foldlM_cons, hpush, ok_bind]
      exact hrest
    · intro i hi
      rw [habove₂ i (by omega), habove₁ i hi]
    · intro i hi
      rw [List.reverse_cons, List.flatten_append, List.flatten_singleton]
      by_cases hlow : i < blobs.flatten.length
      · rw [List.getElem?_append_left (by omega)]
        exact hbytes₂ i hlow
      · rw [List.getElem?_append_right (by omega), hlength,
          hbytes₁ (i - blobs.flatten.length) (by omega), habove₂ _ (by omega)]
        congr 2
        omega

/-! ## A program without segments -/

/-- An ELF file that is only a header, with a given entry point. -/
def bareElf (entry : Word) : List Byte :=
  [0x7f, 0x45, 0x4c, 0x46, 1, 1, 1, 0, 0, 0, 0, 0, 0, 0, 0, 0, 2, 0, 0xf3, 0, 1, 0, 0, 0] ++
  wordBytes entry ++ List.replicate 12 0 ++ [52, 0, 32, 0, 0, 0, 0, 0, 0, 0, 0, 0]

/-- The regions of a program without segments. -/
def bareHeap : PmRegion := ⟨0xffff, 0x10000, programRead ||| programWrite, none⟩
def bareStack (p : HostPointer) : PmRegion :=
  ⟨defaultStackCeiling - BitVec.ofNat 32 defaultStackSize, defaultStackCeiling,
    programRead ||| programWrite, some p⟩

theorem elfHeader_bare (entry : Word) :
    ∃ hdr file, elfHeader ⟨bareElf entry, 0⟩ = .ok (some hdr, file) ∧ hdr.phnum = 0 :=
  ⟨programHeader (bareElf entry), ⟨bareElf entry, 52⟩, rfl, rfl⟩

theorem programHeader_bare (entry : Word) : (programHeader (bareElf entry)).entry = entry := by
  show BitVec.ofNat 32 (ofLeBytes (leBytes 4 entry.toNat)) = entry
  rw [ofLeBytes_leBytes]
  apply BitVec.eq_of_toNat_eq
  rw [BitVec.toNat_ofNat]
  omega

theorem bareStack_inOrder (p : HostPointer) : RegionsInOrder [bareStack p] := by
  refine ⟨?_, List.pairwise_singleton _ _⟩
  simp only [List.mem_singleton, forall_eq]
  show defaultStackCeiling - BitVec.ofNat 32 defaultStackSize < defaultStackCeiling
  decide

theorem bareHeap_below (p : HostPointer) : ∀ r ∈ [bareStack p], bareHeap.addrHigh ≤ r.addrLow := by
  simp only [List.mem_singleton, forall_eq]
  show (0x10000 : Word) ≤ defaultStackCeiling - BitVec.ofNat 32 defaultStackSize
  decide

theorem bare_inOrder (p : HostPointer) : RegionsInOrder [bareHeap, bareStack p] := by
  have horder : RegionsInOrder ([] ++ [bareStack p]) := bareStack_inOrder p
  exact horder.insert (by decide) (by simp) (bareHeap_below p)

theorem stackInit_bare {heap : HostHeap} {stale : List PmRegion} (p : HostPointer) :
    stackInit heap ⟨⟨[], stale⟩, none, none⟩ (some p) =
      .ok (Function.update heap p (some ⟨defaultStackSize, fun _ => 0⟩),
        ⟨⟨[bareStack p], stale.tail⟩, none, some 0⟩) := by
  have horder : RegionsInOrder ([] ++ []) := regionsInOrder_nil
  have hregister : registerPmRegionOperation ⟨[], stale⟩ (bareStack p) =
      .ok ⟨[bareStack p], stale.tail⟩ :=
    registerPmRegionOperation_returns horder ((bareStack_inOrder p).nonempty _ (by simp))
      (by simp) (by simp) (by decide)
  have hsearch : searchPmRegionCallback ⟨[bareStack p], stale.tail⟩ (bareStack p).addrLow =
      .ok (some 0) :=
    searchPmRegionCallback_of_contains (bareStack_inOrder p) rfl
      ⟨BitVec.le_refl _, (bareStack_inOrder p).nonempty _ (by simp)⟩
  rw [bareStack] at hregister hsearch
  simp only [stackInit, HostHeap.preallocatePhysicalMemory, hregister, ok_bind, hsearch]
  rfl

theorem heapInit_bare {stale : List PmRegion} {vmaStack : Option Nat} (p : HostPointer) :
    heapInit ⟨⟨[bareStack p], stale⟩, none, vmaStack⟩ 0 =
      .ok ⟨⟨[bareHeap, bareStack p], stale.tail⟩, some 0, vmaStack⟩ := by
  have horder : RegionsInOrder ([] ++ [bareStack p]) := bareStack_inOrder p
  have hregister : registerPmRegionOperation ⟨[bareStack p], stale⟩ bareHeap =
      .ok ⟨[bareHeap, bareStack p], stale.tail⟩ :=
    registerPmRegionOperation_returns horder (by decide) (by simp) (bareHeap_below p)
      (by decide : 1 < maxNrPmRegions)
  have hsearch : searchPmRegionCallback ⟨[bareHeap, bareStack p], stale.tail⟩ 0xffff =
      .ok (some 0) :=
    searchPmRegionCallback_of_contains (bare_inOrder p) rfl ⟨by decide, by decide⟩
  have hbreak : ((0 : Word) + 4096 * 16) &&& ~~~4095 = 0x10000 := by decide
  have hlow : (0x10000 : Word) - 1 = 0xffff := by decide
  have hregister' : registerPmRegionOperation ⟨[bareStack p], stale⟩
      ⟨0xffff, 0x10000, programRead ||| programWrite, none⟩ =
        .ok ⟨[bareHeap, bareStack p], stale.tail⟩ := hregister
  simp only [heapInit, hbreak, hlow, hregister', ok_bind, hsearch]
  rfl

/-- A program without segments is loaded wherever the stack can be allocated. -/
theorem programInit_bare {alloc : Allocator} {heap : HostHeap} {p : HostPointer} (hart : Hart)
    (stale : List PmRegion) (entry : Word) (hplace : alloc.place heap = some p) :
    ∃ stale', programInit alloc heap hart ⟨⟨[], stale⟩, none, none⟩ (some (bareElf entry)) =
      .ok (Function.update heap p (some ⟨defaultStackSize, fun _ => 0⟩),
        { hart.setRegister sp initialStackTop with pc := entry },
        ⟨⟨[bareHeap, bareStack p], stale'⟩, some 0, some 0⟩) := by
  obtain ⟨hdr, file, hheader, hphnum⟩ := elfHeader_bare entry
  have hentry : hdr.entry = entry := by rw [elfHeader_eq hheader, programHeader_bare]
  refine ⟨stale.tail.tail, ?_⟩
  simp only [programInit, require, ok_bind, hheader, hphnum, List.range_zero, List.foldlM_nil,
    pure_eq_ok, hplace, stackInit_bare, heapInit_bare, hentry]

end Hyrule
