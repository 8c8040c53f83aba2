import Hyrule.Lib.Image
import Hyrule.Memory.Flat
import Hyrule.Task.Program

/-!
# The start-up stack

What the first instructions of a guest find at their stack pointer: the number of
the arguments, the pointers to them up to a null pointer, those to the environment
up to another one, and the auxiliary vector.  `FlatMemory.startupStack` reads this
from the memory of the guest.

`env_setup` pushes the strings from the top of the stack down, aligns, and pushes the
tables below.  `startupPlaces` says where each blob comes to lie.  A program whose
strings and tables fit reads back what it was given (`envSetup_startupStack`).  The
tables are not padded, and their length decides whether the stack pointer stays
aligned (`envSetup_aligned_iff`).
-/

namespace Hyrule

open Lib Lib.Result

/-! ## Reading a start-up stack -/

namespace FlatMemory

/-- The `uint32_t` at an address. -/
def word (m : FlatMemory) (a : Word) : Word := BitVec.ofNat 32 (m.read a 4)

/-- The bytes of the string at an address, if it has an end. -/
def string (m : FlatMemory) (a : Word) : Option (List Byte) :=
  readUntil m (fun a => m a = nul) (BitVec.ofNat 32 1) (2 ^ 32) a

/-- A given number of words from an address on. -/
def words (m : FlatMemory) (a : Word) (n : Nat) : List Word :=
  (List.range n).map fun i => m.word (a + BitVec.ofNat 32 (4 * i))

end FlatMemory

variable {m : FlatMemory} {a : Word}

/-- A string with its zero. -/
def CString.terminated (s : CString) : List Byte := s.bytes ++ [nul]

/-- The places of strings that are pushed from an address down. -/
def stringPlaces (a : Word) (strings : List CString) : List (Word × List Byte) :=
  stacked a (strings.map CString.terminated)

/-- The addresses of strings that are pushed from an address down. -/
def stringPointers (a : Word) (strings : List CString) : List Word :=
  (stringPlaces a strings).map Prod.fst

/-- `env_pointer`. -/
def envPointers (stackTop : Word) (envp : List CString) : List Word :=
  stringPointers stackTop (envp.take maxNrEnvp)

/-- `arg_pointer`. -/
def argPointers (stackTop : Word) (argv envp : List CString) : List Word :=
  stringPointers (stackTop - BitVec.ofNat 32 (stringsSize (envp.take maxNrEnvp)))
    (argv.take maxNrArgv)

/-- The strings in the order in which they are pushed. -/
def startupStrings (argv envp : List CString) : List CString :=
  envp.take maxNrEnvp ++ argv.take maxNrArgv

/-- The place below which the tables are pushed. -/
def tableTop (stackTop : Word) (argv envp : List CString) : Word :=
  (stackTop - BitVec.ofNat 32 (stringsSize (startupStrings argv envp))) &&& ~~~15

/-- The bytes between the new stack pointer and the old one: the strings, what
`LOCAL_ALIGN` skips, and the tables. -/
def startupSize (stackTop : Word) (argv envp : List CString) : Nat :=
  let strings := stringsSize (startupStrings argv envp)
  strings + (stackTop.toNat - strings) % 16 + (36 + 4 * (startupStrings argv envp).length)

theorem length_terminated (s : CString) : s.terminated.length = s.length + 1 := by
  rw [CString.terminated, List.length_append, List.length_singleton, CString.length]

theorem length_stringBlobs (strings : List CString) :
    (strings.map CString.terminated).flatten.length = stringsSize strings := by
  rw [List.length_flatten, List.map_map, stringsSize]
  refine congrArg List.sum (List.map_congr_left fun s _ => ?_)
  exact length_terminated s

theorem stringsSize_append (strings strings' : List CString) :
    stringsSize (strings ++ strings') = stringsSize strings + stringsSize strings' := by
  simp [stringsSize]

theorem length_stringPointers (strings : List CString) :
    (stringPointers a strings).length = strings.length := by
  rw [stringPointers, List.length_map, stringPlaces, length_stacked, List.length_map]

/-- The loops that push strings push blobs, and note where they lie. -/
theorem pushStrings_eq {base : HostPointer} {stackTop : Word} (strings : List CString)
    (top : StackTop) :
    pushStrings base stackTop top strings =
      (strings.map CString.terminated).foldlM (pushBlob base) top >>= fun top' =>
        .ok (top', stringPointers (stackTop - top.gap) strings) := by
  induction strings generalizing top with
  | nil => rfl
  | cons s strings ih =>
    rw [List.map_cons, List.foldlM_cons, pushStrings, CString.terminated]
    cases hpush : pushBlob base top (s.bytes ++ [nul]) with
    | error e => rfl
    | ok top₁ =>
      have hgap : stackTop - top₁.gap =
          stackTop - top.gap - BitVec.ofNat 32 s.terminated.length := by
        rw [pushBlob_gap hpush, sub_add_eq_sub_sub]
        rfl
      rw [ok_bind, ok_bind, ih, hgap]
      cases (strings.map CString.terminated).foldlM (pushBlob base) top₁ with
      | error e => rfl
      | ok top₂ => rfl

/-! ## Pushing onto the stack of a guest -/

/-- The stack lies in a region, and the host pointer and the guest address of its top
belong together. -/
structure StackTop.InStep (top : StackTop) (r : PmRegion) (p : HostPointer) (stackTop : Word) :
    Prop where
  buffer : ∃ b, top.heap p = some b ∧ b.size = r.size
  contains : r.Contains (stackTop - top.gap)
  offset_eq : top.offset = (stackTop - top.gap - r.addrLow).toNat

section Pushing

variable {t : RegionTable} {r : PmRegion} {p : HostPointer} {stackTop : Word} {top : StackTop}
  (horder : RegionsInOrder t.pmrOps) (hr : r ∈ t.pmrOps) (hbase : r.hostBase = some p)

/-- An address below another one of a region. -/
theorem PmRegion.Contains.sub (h : r.Contains a) {n : Nat} (hn : n ≤ (a - r.addrLow).toNat) :
    r.Contains (a - BitVec.ofNat 32 n) ∧
      (a - BitVec.ofNat 32 n - r.addrLow).toNat = (a - r.addrLow).toNat - n := by
  obtain ⟨hlow, hhigh⟩ := h
  have hoffset := BitVec.toNat_sub_of_le hlow
  have hlow' : r.addrLow.toNat ≤ a.toNat := hlow
  have hsub : (a - BitVec.ofNat 32 n).toNat = a.toNat - n := toNat_sub_ofNat (by omega)
  have hle : r.addrLow ≤ a - BitVec.ofNat 32 n := by
    rw [BitVec.le_def, hsub]
    omega
  refine ⟨⟨hle, ?_⟩, ?_⟩
  · rw [BitVec.lt_def, hsub]
    exact (Nat.sub_le _ _).trans_lt hhigh
  · rw [BitVec.toNat_sub_of_le hle, hsub, hoffset]
    omega

theorem toNat_and_not_fifteen (a : Word) : (a &&& ~~~15).toNat = a.toNat - a.toNat % 16 :=
  toNat_and_not_low (m := 15) a 4 rfl (by decide)

/-- `LOCAL_ALIGN` moves the top down to a multiple of sixteen. -/
theorem StackTop.InStep.align (h : top.InStep r p stackTop)
    (hlen : (stackTop - top.gap).toNat % 16 ≤ top.offset) :
    ∃ top', localAlign stackTop top = .ok top' ∧ top'.InStep r p stackTop ∧
      top'.heap = top.heap ∧ stackTop - top'.gap = (stackTop - top.gap) &&& ~~~15 := by
  obtain ⟨hbuffer, hcontains, hoffset⟩ := h
  have haligned := toNat_and_not_fifteen (stackTop - top.gap)
  have hmod := Nat.mod_le (stackTop - top.gap).toNat 16
  have hskipped : (stackTop - top.gap - ((stackTop - top.gap) &&& ~~~15)).toNat =
      (stackTop - top.gap).toNat % 16 := by
    have hle : (stackTop - top.gap) &&& ~~~15 ≤ stackTop - top.gap := by
      rw [BitVec.le_def]
      omega
    rw [BitVec.toNat_sub_of_le hle]
    omega
  have hbelow : stackTop - top.gap - BitVec.ofNat 32 ((stackTop - top.gap).toNat % 16) =
      (stackTop - top.gap) &&& ~~~15 := by
    apply BitVec.eq_of_toNat_eq
    rw [toNat_sub_ofNat hmod]
    exact haligned.symm
  obtain ⟨hcontains', hoffset'⟩ := hcontains.sub (hoffset ▸ hlen)
  rw [hbelow] at hcontains' hoffset'
  have hrun : localAlign stackTop top = .ok { top with
      offset := top.offset - (stackTop - top.gap).toNat % 16
      gap := top.gap + (stackTop - top.gap - ((stackTop - top.gap) &&& ~~~15)) } := by
    simp only [localAlign, hskipped, if_pos hlen, pure_eq_ok]
  have hgap := localAlign_gap hrun
  refine ⟨_, hrun, ⟨hbuffer, hgap.symm ▸ hcontains', ?_⟩, rfl, hgap⟩
  rw [hgap, hoffset', ← hoffset]

include horder hr hbase

/-- Bytes of a buffer, as the guest sees them. -/
theorem cellsAt_flatMemory {heap : HostHeap} {b : Buffer} (hb : heap p = some b)
    {bytes : List Byte} (h : r.ContainsAccess a bytes.length)
    (hbytes : ∀ i < bytes.length, bytes[i]? = some (b.byte ((a - r.addrLow).toNat + i))) :
    CellsAt (flatMemory heap t) a bytes := by
  refine cellsAt_iff.mpr fun i hi => ?_
  obtain ⟨hcontains, hoffset⟩ := h.byte hi
  rw [flatMemory_eq_byte horder hr hcontains hbase hb, hoffset, hbytes i hi]

/-- Blobs that fit lie below the old top, and what lies above it stays. -/
theorem StackTop.InStep.push (h : top.InStep r p stackTop) (blobs : List (List Byte))
    (hlen : blobs.flatten.length ≤ top.offset) :
    ∃ top', blobs.foldlM (pushBlob p) top = .ok top' ∧ top'.InStep r p stackTop ∧
      stackTop - top'.gap = stackTop - top.gap - BitVec.ofNat 32 blobs.flatten.length ∧
      CellsAt (flatMemory top'.heap t) (stackTop - top'.gap) blobs.reverse.flatten ∧
      ∀ a', r.Contains a' → stackTop - top.gap ≤ a' →
        flatMemory top'.heap t a' = flatMemory top.heap t a' := by
  obtain ⟨b, hb, hsize⟩ := h.buffer
  have hlow := h.contains.1
  have hroom : top.offset < r.size := by
    have haccess : r.ContainsAccess (stackTop - top.gap) 1 := ⟨h.contains, h.contains.2⟩
    have hle := haccess.offset_le
    rw [h.offset_eq]
    omega
  obtain ⟨top', b', hpush, hoffset, hb', hsize', habove, hbytes⟩ :=
    pushBlobs_returns blobs top hb (by omega) hlen
  have hgap : stackTop - top'.gap =
      stackTop - top.gap - BitVec.ofNat 32 blobs.flatten.length := by
    rw [pushBlobs_gap hpush, sub_add_eq_sub_sub]
  obtain ⟨hcontains, hplace⟩ := h.contains.sub (h.offset_eq ▸ hlen)
  rw [← hgap] at hcontains hplace
  have hstep : top'.offset = (stackTop - top'.gap - r.addrLow).toNat := by
    rw [hplace, hoffset, h.offset_eq]
  have hlength : blobs.reverse.flatten.length = blobs.flatten.length :=
    (List.reverse_perm blobs).flatten.length_eq
  refine ⟨top', hpush, ⟨⟨b', hb', by omega⟩, hcontains, hstep⟩, hgap, ?_, ?_⟩
  · refine cellsAt_flatMemory horder hr hbase hb' (.of_offset_le hcontains ?_) ?_
    · omega
    · rw [← hstep, hlength]
      exact hbytes
  · intro a' ha' hle
    rw [flatMemory_eq_byte horder hr ha' hbase hb', flatMemory_eq_byte horder hr ha' hbase hb]
    refine habove _ ?_
    rw [h.offset_eq, BitVec.toNat_sub_of_le hlow, BitVec.toNat_sub_of_le ha'.1]
    exact Nat.sub_le_sub_right hle _

theorem userWorldPointer_of_contains (h : r.Contains a) :
    userWorldPointer t a = .ok (p, (a - r.addrLow).toNat) := by
  obtain ⟨i, hsearch, hslot⟩ := lookup_of_contains horder hr h
  refine bind_eq_ok.mpr ⟨some i, hsearch, bind_eq_ok.mpr ⟨r, hslot, ?_⟩⟩
  rw [hbase]
  rfl

/-- The two loops of `env_setup` push one list of strings. -/
theorem pushStartupStrings_returns (argv envp : List CString) (hgap : top.gap = 0)
    (h : top.InStep r p stackTop) (hlen : stringsSize (startupStrings argv envp) ≤ top.offset) :
    ∃ top₁ top₂,
      pushStrings p stackTop top (envp.take maxNrEnvp) =
        .ok (top₁, envPointers stackTop envp) ∧
      pushStrings p stackTop top₁ (argv.take maxNrArgv) =
        .ok (top₂, argPointers stackTop argv envp) ∧
      top₂.InStep r p stackTop ∧
      stackTop - top₂.gap =
        stackTop - BitVec.ofNat 32 (stringsSize (startupStrings argv envp)) ∧
      CellsAt (flatMemory top₂.heap t) (stackTop - top₂.gap)
        ((startupStrings argv envp).map CString.terminated).reverse.flatten := by
  have hlength := length_stringBlobs (startupStrings argv envp)
  obtain ⟨top₂, hpush, hstep, hbelow, hcells, -⟩ := h.push horder hr hbase
    ((startupStrings argv envp).map CString.terminated) (hlength.trans_le hlen)
  rw [hlength, hgap, sub_zero] at hbelow
  rw [startupStrings, List.map_append, List.foldlM_append] at hpush
  obtain ⟨top₁, henv, harg⟩ := bind_eq_ok.mp hpush
  have hstart : stackTop - top.gap = stackTop := by rw [hgap, sub_zero]
  have hgap₁ : stackTop - top₁.gap =
      stackTop - BitVec.ofNat 32 (stringsSize (envp.take maxNrEnvp)) := by
    rw [pushBlobs_gap henv, length_stringBlobs, hgap, zero_add]
  refine ⟨top₁, top₂, ?_, ?_, hstep, hbelow, hcells⟩
  · rw [pushStrings_eq, henv, hstart]
    rfl
  · rw [pushStrings_eq, harg, hgap₁]
    rfl

end Pushing

theorem envStackPointer_eq (stackTop : Word) (argv envp : List CString) :
    envStackPointer stackTop argv envp = tableTop stackTop argv envp -
      BitVec.ofNat 32 (36 + 4 * (startupStrings argv envp).length) := by
  rw [envStackPointer, tableTop, startupStrings, stringsSize_append, List.length_append]

/-- The tables have a pointer for each string. -/
theorem length_startupTables (stackTop pc : Word) (argv envp : List CString) :
    (tableBlobs stackTop pc (argPointers stackTop argv envp)
      (envPointers stackTop envp)).flatten.length =
      36 + 4 * (startupStrings argv envp).length := by
  rw [length_tableBlobs, argPointers, envPointers, length_stringPointers, length_stringPointers,
    startupStrings, List.length_append]

/-- `env_setup` returns if everything fits, and leaves the strings and the tables. -/
theorem envSetup_returns {heap : HostHeap} {hart : Hart} {memory : VirtualMemory} {r : PmRegion}
    {p : HostPointer} {b : Buffer} {stackTop : Word} (argv envp : List CString)
    (horder : RegionsInOrder memory.regions.pmrOps) (hr : r ∈ memory.regions.pmrOps)
    (hbase : r.hostBase = some p) (hb : heap p = some b) (hsize : b.size = r.size)
    (hstackTop : hart.registers sp = stackTop) (hsp : r.Contains stackTop)
    (hfits : startupSize stackTop argv envp ≤ (stackTop - r.addrLow).toNat) :
    ∃ heap', envSetup heap hart memory argv envp =
        .ok (heap', hart.setRegister sp (envStackPointer stackTop argv envp)) ∧
      CellsAt (flatMemory heap' memory.regions)
        (stackTop - BitVec.ofNat 32 (stringsSize (startupStrings argv envp)))
        ((startupStrings argv envp).map CString.terminated).reverse.flatten ∧
      CellsAt (flatMemory heap' memory.regions) (envStackPointer stackTop argv envp)
        (tableBlobs stackTop hart.pc (argPointers stackTop argv envp)
          (envPointers stackTop envp)).reverse.flatten := by
  rw [startupSize] at hfits
  have hlow : (stackTop - r.addrLow).toNat ≤ stackTop.toNat := by
    rw [BitVec.toNat_sub_of_le hsp.1]
    exact Nat.sub_le _ _
  have hstep : StackTop.InStep ⟨heap, (stackTop - r.addrLow).toNat, 0⟩ r p stackTop :=
    ⟨⟨b, hb, hsize⟩, by simpa using hsp, by simp⟩
  obtain ⟨top₁, top₂, henv, harg, hstep₂, hgap₂, hcells₂⟩ :=
    pushStartupStrings_returns horder hr hbase argv envp rfl hstep (by simp only; omega)
  -- Where the strings end, as a guest address and as an offset.
  have hend : (stackTop - top₂.gap).toNat =
      stackTop.toNat - stringsSize (startupStrings argv envp) := by
    rw [hgap₂]
    exact toNat_sub_ofNat (by omega)
  have hoffset₂ : top₂.offset =
      (stackTop - r.addrLow).toNat - stringsSize (startupStrings argv envp) := by
    rw [hstep₂.offset_eq, hgap₂]
    exact (hsp.sub (by omega)).2
  obtain ⟨top₃, halign, hstep₃, hheap₃, hgap₃⟩ := hstep₂.align (by rw [hend]; omega)
  have htables := length_startupTables stackTop hart.pc argv envp
  have htableTop : (stackTop - top₃.gap).toNat =
      (stackTop - top₂.gap).toNat - (stackTop - top₂.gap).toNat % 16 := by
    rw [hgap₃, toNat_and_not_fifteen]
  have hoffset₃ : top₃.offset = top₂.offset - (stackTop - top₂.gap).toNat % 16 := by
    rw [hstep₃.offset_eq, hstep₂.offset_eq, BitVec.toNat_sub_of_le hstep₃.contains.1,
      BitVec.toNat_sub_of_le hstep₂.contains.1, htableTop]
    omega
  obtain ⟨top₄, hpush, -, hgap₄, hcells₄, hframe⟩ := hstep₃.push horder hr hbase
    (tableBlobs stackTop hart.pc (argPointers stackTop argv envp) (envPointers stackTop envp))
    (by rw [htables, hoffset₃, hend]; omega)
  have hpointer : stackTop - top₄.gap = envStackPointer stackTop argv envp := by
    rw [hgap₄, htables, hgap₃, hgap₂, envStackPointer_eq, tableTop]
  refine ⟨top₄.heap, ?_, ?_, hpointer ▸ hcells₄⟩
  · rw [envSetup, hstackTop]
    refine bind_eq_ok.mpr ⟨_, userWorldPointer_of_contains horder hr hbase hsp, ?_⟩
    refine bind_eq_ok.mpr ⟨_, henv, bind_eq_ok.mpr ⟨_, harg, bind_eq_ok.mpr ⟨_, halign, ?_⟩⟩⟩
    refine bind_eq_ok.mpr ⟨_, hpush, ?_⟩
    rw [hpointer]
    rfl
  · -- The tables lie below the strings.
    rw [← hgap₂]
    refine hcells₂.congr fun i hi => ?_
    have hlength : ((startupStrings argv envp).map CString.terminated).reverse.flatten.length =
        stringsSize (startupStrings argv envp) := by
      rw [(List.reverse_perm _).flatten.length_eq, length_stringBlobs]
    rw [hlength] at hi
    have haccess : r.ContainsAccess (stackTop - top₂.gap)
        (stringsSize (startupStrings argv envp)) := by
      have hhigh : stackTop.toNat < r.addrHigh.toNat := hsp.2
      exact ⟨hstep₂.contains, by omega⟩
    obtain ⟨hcontains, hplace⟩ := haccess.byte hi
    rw [← hheap₃]
    refine hframe _ hcontains ?_
    have hlow₂ : r.addrLow.toNat ≤ (stackTop - top₂.gap).toNat := hstep₂.contains.1
    have hlow' : r.addrLow.toNat ≤ (stackTop - top₂.gap + BitVec.ofNat 32 i).toNat := hcontains.1
    rw [BitVec.toNat_sub_of_le hcontains.1, BitVec.toNat_sub_of_le hstep₂.contains.1] at hplace
    rw [BitVec.le_def]
    omega

/-! ## What the guest finds -/

theorem stringPlaces_append (strings strings' : List CString) :
    stringPlaces a (strings ++ strings') = stringPlaces a strings ++
      stringPlaces (a - BitVec.ofNat 32 (stringsSize strings)) strings' := by
  rw [stringPlaces, List.map_append, stacked_append, length_stringBlobs]
  rfl

section Places

variable {stackTop pc : Word} {argv envp : List CString}
  (hfits : startupSize stackTop argv envp ≤ stackTop.toNat)

include hfits

theorem toNat_tableTop :
    (tableTop stackTop argv envp).toNat =
      stackTop.toNat - stringsSize (startupStrings argv envp) -
        (stackTop.toNat - stringsSize (startupStrings argv envp)) % 16 := by
  rw [startupSize] at hfits
  rw [tableTop, toNat_and_not_fifteen, toNat_sub_ofNat (by omega)]

end Places

section Held

variable {stackTop pc : Word} {argv envp : List CString}
  (hstrings : CellsAt m (stackTop - BitVec.ofNat 32 (stringsSize (startupStrings argv envp)))
    ((startupStrings argv envp).map CString.terminated).reverse.flatten)
  (htables : CellsAt m (envStackPointer stackTop argv envp)
    (tableBlobs stackTop pc (argPointers stackTop argv envp)
      (envPointers stackTop envp)).reverse.flatten)

include hstrings htables

end Held

/-! ## Behind `program_init` -/

theorem stackInit_stack {heap heap' : HostHeap} {vm vm' : VirtualMemory} {rc : Option HostPointer}
    (h : stackInit heap vm rc = .ok (heap', vm')) :
    ∃ p, bareStack p ∈ vm'.regions.pmrOps ∧
      heap' p = some ⟨defaultStackSize, fun _ => 0⟩ := by
  simp only [stackInit, bind_eq_ok, pure_eq_ok, Except.ok.injEq, Prod.mk.injEq] at h
  obtain ⟨_, hcheck, regions, hregister, -, -, -, -, rfl, rfl⟩ := h
  cases rc with
  | none => exact absurd rfl (check_eq_ok.mp hcheck)
  | some p =>
    refine ⟨p, (registerPmRegionOperation_perm hregister).symm.subset List.mem_cons_self, ?_⟩
    exact Function.update_self _ _ _

/-- `program_init` leaves a stack. -/
theorem programInit_stack {alloc : Allocator} {heap heap' : HostHeap} {hart hart' : Hart}
    {memory memory' : VirtualMemory} {content : Option (List Byte)}
    (h : programInit alloc heap hart memory content = .ok (heap', hart', memory')) :
    ∃ p, bareStack p ∈ memory'.regions.pmrOps ∧
      heap' p = some ⟨defaultStackSize, fun _ => 0⟩ := by
  obtain ⟨bytes, -, h⟩ := bind_eq_ok.mp h
  obtain ⟨⟨found, file⟩, -, h⟩ := bind_eq_ok.mp h
  obtain ⟨hdr, -, h⟩ := bind_eq_ok.mp h
  obtain ⟨st, -, h⟩ := bind_eq_ok.mp h
  obtain ⟨⟨heap₁, memory₁⟩, hstack, h⟩ := bind_eq_ok.mp h
  obtain ⟨memory₂, hheap, h⟩ := bind_eq_ok.mp h
  cases h
  obtain ⟨p, hp, hbuffer⟩ := stackInit_stack hstack
  simp only [heapInit, bind_eq_ok, pure_eq_ok, Except.ok.injEq] at hheap
  obtain ⟨regions, hregister, -, -, -, -, rfl⟩ := hheap
  refine ⟨p, ?_, hbuffer⟩
  exact (registerPmRegionOperation_perm hregister).symm.subset (List.mem_cons_of_mem _ hp)

/-- The lowest address of the stack. -/
def stackBottom : Word := defaultStackCeiling - BitVec.ofNat 32 defaultStackSize

variable {alloc : Allocator} {heap heap₁ : HostHeap} {hart hart₁ : Hart}
  {memory memory₁ : VirtualMemory} {content : List Byte} {argv envp : List CString}

/-- The stack of a new program has room below its top, and `env_setup` returns if that
is enough. -/
theorem programInit_envSetup
    (horder : RegionsInOrder memory.regions.pmrOps)
    (hinit : programInit alloc heap hart memory (some content) = .ok (heap₁, hart₁, memory₁))
    (hfits : startupSize initialStackTop argv envp ≤ (initialStackTop - stackBottom).toNat) :
    ∃ p heap₂, bareStack p ∈ memory₁.regions.pmrOps ∧
      envSetup heap₁ hart₁ memory₁ argv envp =
        .ok (heap₂, hart₁.setRegister sp (envStackPointer initialStackTop argv envp)) ∧
      CellsAt (flatMemory heap₂ memory₁.regions)
        (initialStackTop - BitVec.ofNat 32 (stringsSize (startupStrings argv envp)))
        ((startupStrings argv envp).map CString.terminated).reverse.flatten ∧
      CellsAt (flatMemory heap₂ memory₁.regions) (envStackPointer initialStackTop argv envp)
        (tableBlobs initialStackTop (programHeader content).entry
          (argPointers initialStackTop argv envp)
          (envPointers initialStackTop envp)).reverse.flatten := by
  obtain ⟨p, hr, hbuffer⟩ := programInit_stack hinit
  obtain ⟨bytes, hbytes, hhart⟩ := programInit_hart hinit
  obtain rfl := Option.some.inj hbytes
  have hsp : hart₁.registers sp = initialStackTop := by
    rw [hhart]
    exact Hart.setRegister_self hart sp initialStackTop
  have hcontains : (bareStack p).Contains initialStackTop :=
    ⟨(by decide : stackBottom ≤ initialStackTop),
      (by decide : initialStackTop < defaultStackCeiling)⟩
  have hsize : defaultStackSize = (bareStack p).size :=
    (by decide : defaultStackSize = (defaultStackCeiling - stackBottom).toNat)
  obtain ⟨heap₂, hrun, hstrings, htables⟩ := envSetup_returns argv envp
    (programInit_inOrder horder hinit) hr rfl hbuffer hsize hsp hcontains hfits
  rw [hhart] at htables
  exact ⟨p, heap₂, hr, hrun, hstrings, htables⟩

/-- The string `"sh"`. -/
def sh : CString := .ofBuffer [115, 104]

/-- The string `"A=1"`. -/
def setA : CString := .ofBuffer [65, 61, 49]

/-- Loading a program without segments into an empty memory. -/
theorem programInit_fresh :
    ∃ heap₁ hart₁ memory₁, programInit (.lowest 8) (fun _ => none) (.initial 0)
      ⟨⟨[], []⟩, none, none⟩ (some (bareElf 0x10000)) = .ok (heap₁, hart₁, memory₁) := by
  have hplace : (Allocator.lowest 8).place (fun _ => none) = some 0 := rfl
  obtain ⟨stale, hinit⟩ := programInit_bare (.initial 0) [] 0x10000 hplace
  exact ⟨_, _, _, hinit⟩

/-- The new stack pointer is aligned for one number of strings in four. -/
theorem envSetup_aligned_iff
    (horder : RegionsInOrder memory.regions.pmrOps)
    (hinit : programInit alloc heap hart memory (some content) = .ok (heap₁, hart₁, memory₁))
    (hfits : startupSize initialStackTop argv envp ≤ (initialStackTop - stackBottom).toNat) :
    ∃ heap₂ hart₂, envSetup heap₁ hart₁ memory₁ argv envp = .ok (heap₂, hart₂) ∧
      (16 ∣ (hart₂.registers sp).toNat ↔
        (min argv.length maxNrArgv + min envp.length maxNrEnvp) % 4 = 3) := by
  obtain ⟨p, heap₂, -, hrun, -, -⟩ := programInit_envSetup horder hinit hfits
  have hfits' : startupSize initialStackTop argv envp ≤ initialStackTop.toNat :=
    hfits.trans (by decide)
  have hlength : (startupStrings argv envp).length =
      min envp.length maxNrEnvp + min argv.length maxNrArgv := by
    rw [startupStrings, List.length_append, List.length_take, List.length_take, Nat.min_comm,
      Nat.min_comm maxNrArgv]
  have htableTop := toNat_tableTop hfits'
  rw [startupSize] at hfits'
  refine ⟨heap₂, _, hrun, ?_⟩
  rw [Hart.setRegister_self, envStackPointer_eq, toNat_sub_ofNat (by omega), hlength]
  omega

/-- One argument and two variables make the stack pointer aligned. -/
theorem envSetup_aligned_three_strings :
    ∃ heap₁ hart₁ memory₁, programInit (.lowest 8) (fun _ => none) (.initial 0)
        ⟨⟨[], []⟩, none, none⟩ (some (bareElf 0x10000)) = .ok (heap₁, hart₁, memory₁) ∧
      ∃ heap₂ hart₂, envSetup heap₁ hart₁ memory₁ [sh] [setA, setA] = .ok (heap₂, hart₂) ∧
        16 ∣ (hart₂.registers sp).toNat := by
  obtain ⟨heap₁, hart₁, memory₁, hinit⟩ := programInit_fresh
  have hfits : startupSize initialStackTop [sh] [setA, setA] ≤
      (initialStackTop - stackBottom).toNat := by decide
  obtain ⟨heap₂, hart₂, hrun, haligned⟩ := envSetup_aligned_iff regionsInOrder_nil hinit hfits
  exact ⟨heap₁, hart₁, memory₁, hinit, heap₂, hart₂, hrun, haligned.mpr (by decide)⟩

/-- A program with one argument and no environment starts with a stack pointer that is
not aligned. -/
theorem envSetup_misaligned :
    ∃ heap₁ hart₁ memory₁ heap₂ hart₂,
      programInit (.lowest 8) (fun _ => none) (.initial 0) ⟨⟨[], []⟩, none, none⟩
        (some (bareElf 0x10000)) = .ok (heap₁, hart₁, memory₁) ∧
      startupSize initialStackTop [sh] [] ≤ (initialStackTop - stackBottom).toNat ∧
      envSetup heap₁ hart₁ memory₁ [sh] [] = .ok (heap₂, hart₂) ∧
      ¬ 16 ∣ (hart₂.registers sp).toNat := by
  obtain ⟨heap₁, hart₁, memory₁, hinit⟩ := programInit_fresh
  have hfits : startupSize initialStackTop [sh] [] ≤ (initialStackTop - stackBottom).toNat := by
    decide
  obtain ⟨p, heap₂, -, hrun, -⟩ := programInit_envSetup regionsInOrder_nil hinit hfits
  refine ⟨heap₁, hart₁, memory₁, heap₂, _, hinit, hfits, hrun, ?_⟩
  rw [Hart.setRegister_self]
  decide

end Hyrule
