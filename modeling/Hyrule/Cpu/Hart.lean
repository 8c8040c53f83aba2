import Hyrule.Memory.Host

/-!
# Harts

The guest registers of a hart, and the accesses of its instructions to memory.
The harts of the sandbox stay in machine mode, so an access is not translated:
it goes to the region table of the task's memory.
-/

namespace Hyrule

open Lib Lib.Result

/-- The index of a guest register. -/
abbrev RegisterIndex := Fin 32

instance registerCount_neZero : NeZero 32 := ⟨by decide⟩

/-- `struct hart`, its guest registers and its id. -/
structure Hart where
  registers : RegisterIndex → Word
  pc : Word
  hartId : Int

namespace Hart

/-- The registers after `hart_init`. -/
def initial (hartId : Int) : Hart := ⟨fun _ => 0, 0, hartId⟩

/-- `regs[rd_index] = value`. -/
def setRegister (hart : Hart) (rd : RegisterIndex) (value : Word) : Hart :=
  { hart with registers := Function.update hart.registers rd value }

/-- `RESET_ZERO_REGISTER` and `PROCEED_TO_NEXT_INSTRUCTION`. -/
def proceed (hart : Hart) : Hart :=
  { hart.setRegister 0 0 with pc := hart.pc + 4 }

theorem proceed_registers {hart : Hart} {rd : RegisterIndex} (h : rd ≠ 0) :
    hart.proceed.registers rd = hart.registers rd :=
  Function.update_of_ne h _ _

@[simp] theorem setRegister_self (hart : Hart) (rd : RegisterIndex) (value : Word) :
    (hart.setRegister rd value).registers rd = value :=
  Function.update_self _ _ _

end Hart

/-- `mmu_read32_aligned`. -/
def mmuRead32Aligned (heap : HostHeap) (t : RegionTable) (location : Word) : Result Word :=
  if location &&& 3 ≠ 0 then throw .exception
  else do return BitVec.ofNat 32 (← directRead heap t location 4)

/-- `mmu_write32_aligned`. -/
def mmuWrite32Aligned (heap : HostHeap) (t : RegionTable) (location value : Word) :
    Result HostHeap :=
  if location &&& 3 ≠ 0 then throw .exception
  else directWrite heap t location 4 value.toNat

/-- A word that can be read can be written, and then it is the one read. -/
theorem mmuRead32Aligned_write {heap : HostHeap} {t : RegionTable} {location old : Word}
    (h : mmuRead32Aligned heap t location = .ok old) (value : Word) :
    ∃ heap', mmuWrite32Aligned heap t location value = .ok heap' ∧
      mmuRead32Aligned heap' t location = .ok value := by
  unfold mmuRead32Aligned mmuWrite32Aligned at *
  split at h
  next => cases h
  next halign =>
    obtain ⟨w, hread, -⟩ := bind_eq_ok.mp h
    obtain ⟨heap', hwrite, hread'⟩ := directRead_directWrite hread value.toNat
    refine ⟨heap', by rw [if_neg halign]; exact hwrite, ?_⟩
    rw [if_neg halign, hread', ok_bind, pure_eq_ok]
    congr 1
    apply BitVec.eq_of_toNat_eq
    rw [BitVec.toNat_ofNat]
    omega

end Hyrule
