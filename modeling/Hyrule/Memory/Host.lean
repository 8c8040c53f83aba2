import Hyrule.Lib.Result
import Hyrule.Memory.PmRegion
import Mathlib.Logic.Function.Basic

/-!
# Host allocations

The heap of the host process, as far as the guest's memory lies in it.  A
pointer to an allocation is its place, and an allocation is a buffer of some
size.  Where an allocation is put, and whether it succeeds, is the host's
choice: it is an argument of every function that allocates.  So are the bytes
that `realloc` adds, which are not cleared.

An access outside a live allocation is a fault.  The accesses go through the
callbacks of `app.c` that every region of a guest has.
-/

namespace Hyrule

open Lib Lib.Result

/-- An allocation. -/
structure Buffer where
  size : Nat
  byte : Nat → Byte

/-- The live allocations. -/
abbrev HostHeap := HostPointer → Option Buffer

namespace HostHeap

/-- `free`. -/
def free (heap : HostHeap) (p : HostPointer) : HostHeap := Function.update heap p none

/-- `preallocate_physical_memory`, with what `aligned_alloc` returns. -/
def preallocatePhysicalMemory (heap : HostHeap) (nrBytes : Nat) (rc : Option HostPointer) :
    HostHeap × Option HostPointer :=
  match rc with
  | none => (heap, none)
  | some p => (Function.update heap p (some ⟨nrBytes, fun _ => 0⟩), some p)

/-- `realloc` to `n` bytes, with the place it returns and the bytes it adds. -/
def realloc (heap : HostHeap) (old : Option HostPointer) (n : Nat) (rc : Option HostPointer)
    (added : Nat → Byte) : HostHeap × Option HostPointer :=
  match rc with
  | none => (heap, none)
  | some p =>
      let kept : Nat → Byte :=
        match old.bind heap with
        | none => added
        | some b => fun i => if i < b.size then b.byte i else added i
      let heap' := match old with
        | none => heap
        | some q => heap.free q
      (Function.update heap' p (some ⟨n, kept⟩), some p)

/-- The bytes of an allocation from an offset on. -/
def load (heap : HostHeap) (p : HostPointer) (offset n : Nat) : Result (List Byte) :=
  match heap p with
  | none => throw .outOfBounds
  | some b =>
      if offset + n ≤ b.size then return (List.range n).map fun i => b.byte (offset + i)
      else throw .outOfBounds

/-- Bytes stored to an allocation from an offset on. -/
def store (heap : HostHeap) (p : HostPointer) (offset : Nat) (bytes : List Byte) :
    Result HostHeap :=
  match heap p with
  | none => throw .outOfBounds
  | some b =>
      if offset + bytes.length ≤ b.size then
        return Function.update heap p
          (some ⟨b.size, memcpy b.byte offset (fun i => bytes.getD i 0) bytes.length⟩)
      else throw .outOfBounds

/-- Where bytes can be loaded they can be stored, and then they are the ones
loaded. -/
theorem load_store {heap : HostHeap} {p : HostPointer} {offset : Nat} {bytes old : List Byte}
    (h : heap.load p offset bytes.length = .ok old) :
    ∃ heap', heap.store p offset bytes = .ok heap' ∧
      heap'.load p offset bytes.length = .ok bytes := by
  unfold load at h
  cases hp : heap p with
  | none => simp [hp] at h
  | some b =>
    rw [hp] at h
    by_cases hsize : offset + bytes.length ≤ b.size
    · have hstore : heap.store p offset bytes = .ok (Function.update heap p
          (some ⟨b.size, memcpy b.byte offset (fun i => bytes.getD i 0) bytes.length⟩)) := by
        simp only [store, hp, if_pos hsize, pure_eq_ok]
      refine ⟨_, hstore, ?_⟩
      simp only [load, Function.update_self, if_pos hsize, pure_eq_ok, Except.ok.injEq]
      apply List.ext_getElem
      · simp
      · intro i _ hi
        rw [List.getElem_map, List.getElem_range, memcpy_add hi]
        simp [hi]
    · simp [if_neg hsize] at h

end HostHeap

/-! ## Accesses to a region -/

/-- `vma_generic_read` of an access size, as a number. -/
def vmaGenericRead (heap : HostHeap) (pmr : PmRegion) (addr : Word) (accessSize : Nat) :
    Result Nat := do
  let base ← deref pmr.hostBase
  let bytes ← heap.load base (addr - pmr.addrLow).toNat accessSize
  return ofLeBytes bytes

/-- `vma_generic_write`. -/
def vmaGenericWrite (heap : HostHeap) (pmr : PmRegion) (addr : Word) (accessSize value : Nat) :
    Result HostHeap := do
  let base ← deref pmr.hostBase
  heap.store base (addr - pmr.addrLow).toNat (leBytes accessSize value)

/-- `vma_generic_reclaim`. -/
def vmaGenericReclaim (heap : HostHeap) (pmr : PmRegion) : HostHeap × PmRegion :=
  match pmr.hostBase with
  | none => (heap, pmr)
  | some p => (heap.free p, { pmr with hostBase := none })

/-- `direct_read` of an access size. -/
def directRead (heap : HostHeap) (t : RegionTable) (address : Word) (accessSize : Nat) :
    Result Nat := do
  match ← searchPmRegionCallback t address with
  | none => throw .assertion
  | some i => vmaGenericRead heap (← t.slot i) address accessSize

/-- `direct_write` of an access size. -/
def directWrite (heap : HostHeap) (t : RegionTable) (address : Word) (accessSize value : Nat) :
    Result HostHeap := do
  match ← searchPmRegionCallback t address with
  | none => throw .assertion
  | some i => vmaGenericWrite heap (← t.slot i) address accessSize value

/-- Where a number can be read it can be written, and then it is the one read. -/
theorem directRead_directWrite {heap : HostHeap} {t : RegionTable} {address : Word}
    {accessSize old : Nat} (h : directRead heap t address accessSize = .ok old) (value : Nat) :
    ∃ heap', directWrite heap t address accessSize value = .ok heap' ∧
      directRead heap' t address accessSize = .ok (value % 256 ^ accessSize) := by
  simp only [directRead, bind_eq_ok] at h
  obtain ⟨r, hsearch, h⟩ := h
  cases r with
  | none => cases h
  | some i =>
    simp only [vmaGenericRead, bind_eq_ok, deref_eq_ok, pure_eq_ok] at h
    obtain ⟨pmr, hslot, base, hbase, bytes, hload, -⟩ := h
    rw [← length_leBytes accessSize value] at hload
    obtain ⟨heap', hstore, hload'⟩ := HostHeap.load_store hload
    refine ⟨heap', ?_, ?_⟩
    · simp only [directWrite, hsearch, hslot, vmaGenericWrite, hbase, deref, ok_bind]
      exact hstore
    · rw [length_leBytes] at hload'
      simp only [directRead, hsearch, hslot, vmaGenericRead, hbase, deref, ok_bind, hload',
        pure_eq_ok, ofLeBytes_leBytes]

end Hyrule
