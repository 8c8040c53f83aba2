import Hyrule.Task.GuestMemory

/-!
# Atomic operations with any registers

The slow paths of the atomic operations use `rd` for the word that they load.  They copy
`rs1` and `rs2` first, and write `rd` before they write the word back, so it does not
matter which of the registers are the same, or are `x0`: the block of an operation applies
it to the old word and the old operand, and leaves the old word in `rd` (`amo_done`).

The table may be any in which the word can be read.  Of the host's memory the operation
changes the four bytes of the word.  In a table in order whose regions have buffers of
their own, these are the four guest bytes from the address on.
-/

namespace Hyrule

open Lib Lib.Result Riscv

/-! ## Stores -/

section Stores

variable {heap heap' : HostHeap} {t : RegionTable} {address : Word} {accessSize value : Nat}

/-- A byte of a buffer. -/
def HostHeap.byteAt (heap : HostHeap) (p : HostPointer) (offset : Nat) : Option Byte :=
  (heap p).map fun b => b.byte offset

/-- A store changes bytes of its own only. -/
theorem directWrite_byteAt (h : directWrite heap t address accessSize value = .ok heap') :
    ∃ p offset, userWorldPointer t address = .ok (p, offset) ∧
      ∀ q k, ¬ (q = p ∧ offset ≤ k ∧ k < offset + accessSize) →
        heap'.byteAt q k = heap.byteAt q k := by
  obtain ⟨i, r, p, b, hsearch, hslot, -, -, hbase, hb, -, rfl⟩ := directWrite_ok h
  have hpointer : userWorldPointer t address = .ok (p, (address - r.addrLow).toNat) := by
    simp only [userWorldPointer, hsearch, ok_bind, hslot, hbase, deref, pure_eq_ok]
  refine ⟨p, _, hpointer, fun q k hout => ?_⟩
  by_cases hq : q = p
  · subst hq
    have hk : ¬ ((address - r.addrLow).toNat ≤ k ∧
        k < (address - r.addrLow).toNat + (leBytes accessSize value).length) := by
      rw [length_leBytes]
      exact fun hin => hout ⟨rfl, hin⟩
    simp only [HostHeap.byteAt, Function.update_self, hb, Option.map_some, Buffer.copy, memcpy,
      if_neg hk]
  · simp only [HostHeap.byteAt, Function.update_of_ne hq]

/-- In a table in order whose regions have buffers of their own, these are the bytes from the
address on. -/
theorem directWrite_flatMemory (horder : RegionsInOrder t.pmrOps)
    (hbacked : SeparatelyBacked heap t)
    (h : directWrite heap t address accessSize value = .ok heap') {a : Word}
    (ha : accessSize ≤ (a - address).toNat) : flatMemory heap' t a = flatMemory heap t a := by
  obtain ⟨i, r, p, b, -, -, hr, hcontains, hbase, hb, hsize, rfl⟩ := directWrite_ok h
  obtain ⟨p', b', hbase', hb', hbsize⟩ := hbacked.backed r hr
  cases hbase.symm.trans hbase'
  cases hb.symm.trans hb'
  have hinside : r.ContainsAccess address accessSize := .of_offset_le hcontains (hbsize ▸ hsize)
  rw [flatMemory_update horder hbacked hr hbase hb hinside, FlatMemory.write_of_ge _ _ ha]

end Stores

/-! ## The operations -/

/-- What an atomic operation of a task leaves, given the word that it found. -/
structure AmoDone (op : AmoOp) (rd rs1 rs2 : RegisterIndex) (t owner : TaskId) (old : Word)
    (s s' : Sandbox) : Prop where
  /-- The word is the operation of the old word and the operand. -/
  word : mmuRead32Aligned s'.forest.heap (s'.forest.vm owner).memory.regions
    ((s.forest.vm t).hart.registers rs1) =
      .ok (op.eval old ((s.forest.vm t).hart.registers rs2))
  loaded : (s'.forest.vm t).hart.registers rd = if rd = 0 then 0 else old
  pc : (s'.forest.vm t).hart.pc = (s.forest.vm t).hart.pc + 4
  registers : ∀ i, i ≠ rd →
    (s'.forest.vm t).hart.registers i = (s.forest.vm t).hart.registers i
  /-- The bytes of the host's memory that are not of the word. -/
  bytes : ∃ p offset, userWorldPointer (s.forest.vm owner).memory.regions
      ((s.forest.vm t).hart.registers rs1) = .ok (p, offset) ∧
    ∀ q k, ¬ (q = p ∧ offset ≤ k ∧ k < offset + 4) →
      s'.forest.heap.byteAt q k = s.forest.heap.byteAt q k
  /-- The guest's bytes that are not of the word. -/
  guestBytes : RegionsInOrder (s.forest.vm owner).memory.regions.pmrOps →
    SeparatelyBacked s.forest.heap (s.forest.vm owner).memory.regions →
    ∀ a : Word, 4 ≤ (a - (s.forest.vm t).hart.registers rs1).toNat →
      (s'.flat owner).memory a = (s.flat owner).memory a
  /-- Nothing changes but the hart and the bytes. -/
  rest : s' = s.accessed t (s'.forest.vm t).hart s'.forest.heap s.reservations

theorem writeNext_self {hart : Hart} {rd : RegisterIndex} {value : Word}
    (h0 : hart.registers 0 = 0) :
    (writeNext hart rd value).registers rd = if rd = 0 then 0 else value := by
  by_cases hrd : rd = 0
  · simp [writeNext, write, hrd, h0]
  · simp [writeNext, write, hrd]

theorem writeNext_of_ne {hart : Hart} {rd i : RegisterIndex} {value : Word} (hi : i ≠ rd) :
    (writeNext hart rd value).registers i = hart.registers i := by
  by_cases hrd : rd = 0
  · simp [writeNext, write, hrd]
  · simp [writeNext, write, hrd, Hart.setRegister, hi]

/-- An operation on a word that can be read, by a hart whose `x0` is zero, with any registers:
equal or not, and `x0` or not. -/
theorem amo_done {s : Sandbox} {run : InstructionRun} {owner : TaskId} {op : AmoOp}
    {rd rs1 rs2 : RegisterIndex} {old : Word} (hop : op ∈ [.add, .swap, .xor, .or, .and, .maxu])
    (hdecode : decode run.instruction = some (.amo op rd rs1 rs2))
    (hlink : getLinkedVm s.forest run.task .vm = .ok owner)
    (h0 : (s.forest.vm run.task).hart.registers 0 = 0)
    (hold : mmuRead32Aligned s.forest.heap (s.forest.vm owner).memory.regions
      ((s.forest.vm run.task).hart.registers rs1) = .ok old) :
    ∃ s', run.next s = .ok s' ∧ AmoDone op rd rs1 rs2 run.task owner old s s' := by
  obtain ⟨funct5, hfunct5⟩ : ∃ funct5, op.funct5 = some funct5 := by
    cases op with
    | add | swap | xor | or | and | maxu => exact ⟨_, rfl⟩
    | min | max | minu => simp at hop
  have hb : translate run.address run.instruction =
      .ok ⟨.amo, [indexParam rs1, indexParam rs2, indexParam rd, funct5]⟩ := by
    rw [translate_of_decode hdecode, Instruction.block, hfunct5]
    rfl
  generalize hhart : (s.forest.vm run.task).hart = hart at h0 hold
  obtain ⟨heap, hwrite, hread⟩ :=
    mmuRead32Aligned_write hold (op.eval old (hart.registers rs2))
  have hslow : run.amo s owner funct5 rs1 rs2 rd =
      .ok ⟨hart.setRegister rd old, heap, s.reservations⟩ := by
    rw [run.amo_eq hfunct5, amoSlowpath, hhart]
    simp only [hold, ok_bind, Hart.setRegister_self, hwrite, pure_eq_ok]
  have hnext : run.next s =
      .ok (s.accessed run.task (writeNext hart rd old) heap s.reservations) := by
    rw [run.next_amo hlink hb hslow, proceed_setRegister h0]
    rfl
  rw [mmuWrite32Aligned] at hwrite
  split at hwrite
  next => cases hwrite
  next =>
    refine ⟨_, hnext, ?_⟩
    have hmemory : ((s.accessed run.task (writeNext hart rd old) heap s.reservations).forest.vm
        owner).memory = (s.forest.vm owner).memory := accessed_vm Vm.memory (fun _ _ => rfl) owner
    constructor
    · rw [accessed_heap, hmemory, hhart]
      exact hread
    · rw [accessed_hart, writeNext_self h0]
    · rw [accessed_hart, hhart]
      rfl
    · intro i hi
      rw [accessed_hart, hhart, writeNext_of_ne hi]
    · rw [accessed_heap, hhart]
      exact directWrite_byteAt hwrite
    · intro horder hbacked a ha
      rw [hhart] at ha
      rw [accessed_flat]
      exact directWrite_flatMemory horder hbacked hwrite ha
    · rw [accessed_hart, accessed_heap]

/-- One task with a region of 16 bytes, and `x1` at a word of it. -/
def wordSandbox : Sandbox := smallSandbox.setHart 0 ((Hart.initial 0).setRegister 1 0x1004)

/-- `amoadd.w x1, x1, (x1)`. -/
theorem amo_done_same_register :
    ∃ s', (firstTaskRuns 0x0010a0af).next wordSandbox = .ok s' ∧
      (s'.forest.vm 0).hart.registers 1 = 0xffffffff ∧
      mmuRead32Aligned s'.forest.heap (s'.forest.vm 0).memory.regions 0x1004 = .ok 0x1003 := by
  have hdecode : decode (firstTaskRuns 0x0010a0af).instruction = some (.amo .add 1 1 1) := rfl
  have hlink : getLinkedVm wordSandbox.forest (firstTaskRuns 0x0010a0af).task .vm = .ok 0 := rfl
  have hold : mmuRead32Aligned wordSandbox.forest.heap
      (wordSandbox.forest.vm 0).memory.regions
      ((wordSandbox.forest.vm (firstTaskRuns 0x0010a0af).task).hart.registers 1) =
        .ok 0xffffffff := by
    decide +kernel
  obtain ⟨s', hnext, hdone⟩ := amo_done (by simp) hdecode hlink rfl hold
  exact ⟨s', hnext, hdone.loaded, hdone.word⟩

end Hyrule
