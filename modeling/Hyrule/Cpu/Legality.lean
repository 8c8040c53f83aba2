import Hyrule.Cache.Prefetch
import Hyrule.Cpu.Encoding

/-!
# Which words are translated

`prefetch_one_instruction` on the translators of the sources.  A translator that
finds its table empty or fails an assertion stops the process.  Otherwise the
word is translated and runs as the instruction whose template was chosen.

The tests of the translators are partial: `Unchecked` lists the fields that no
test looks at.  A word is translated without being a legal one exactly if it has
such a field (`onlyLegal_iff`), and then runs as another instruction.
-/

namespace Hyrule

open Lib Lib.Result Riscv

/-! ## The assembled templates -/

/-- The number of parameters in the schema of a template. -/
def Template.nrParams : Template → Nat
  | .fence | .fenceI | .ecall => 1
  | .lui => 2
  | .jalr | .amo => 4
  | _ => 3

/-- The bytes that the assembler makes of the templates. -/
structure Assembly (jumper : Block) where
  block : Template → Block
  fits : ∀ template, (block template).size + jumper.size ≤ translationCacheSize
  params_fit : ∀ template, 4 * template.nrParams ≤ (block template).size

variable {jumper : Block}

/-- The translation that a translator commits. -/
def Assembly.translation (asm : Assembly jumper) (b : TranslatedBlock) :
    Option (Translation jumper) :=
  if h : b.params.length = b.template.nrParams then some
    { block := asm.block b.template
      params := b.params
      fallsThrough := b.template.fallsThrough
      fits := asm.fits b.template
      params_fit := h ▸ asm.params_fit b.template }
  else none

/-- The code of a guest, given the words that `mmu_instruction_read32` returns. -/
def Assembly.guestCode (asm : Assembly jumper) (fetch : Word → Option Word) : GuestCode jumper :=
  fun address => do
    match translate address (← fetch address) with
    | .ok b => asm.translation b
    | .error _ => none

/-- `prefetch_one_instruction` returns and has committed a block: the word was
dispatched to it, and `PRECHECK_TRANSLATION_CACHE` did not stop the unit. -/
structure Assembly.Commits (asm : Assembly jumper) (fetch : Word → Option Word)
    (tc : TranslationCache) (blob : PrefetchBlob) (b : TranslatedBlock) : Prop where
  returns : ∃ out, prefetchOneInstruction (asm.guestCode fetch) tc blob = .ok out
  dispatched : ∃ w, fetch blob.nextInstructionToFetch = some w ∧
    translate blob.nextInstructionToFetch w = .ok b
  room : ¬ (unoccupiedCacheSize jumper tc < (asm.block b.template).size ∧
    blob.isFlushable = false)

/-! ## Unchecked fields -/

/-- The word has a field that the translators do not test but that the instruction
set fixes. -/
def Unchecked (w : Word) : Prop :=
  match opcode w with
  | 0x67 => funct3 w ≠ 0
  | 0x13 =>
      -- `slli` tests no bit above the amount, `srli` and `srai` only one.
      funct3 w = 1 ∧ funct7 w ≠ 0 ∨ funct3 w = 5 ∧ funct7 w ≠ 0 ∧ funct7 w ≠ 0x20
  | 0x33 =>
      -- Only `add`, `sub`, `srl` and `sra` test more than two bits.
      funct7 w % 4 = 0 ∧ funct7 w ≠ 0 ∧ funct3 w ≠ 0 ∧ funct3 w ≠ 5 ∨
        funct7 w % 4 = 1 ∧ funct7 w ≠ 1
  | 0x73 => funct3 w = 0 ∧ rs2 w = 0 ∧ w ≠ 0x73
  | 0x2f =>
      funct5 w ∈ [0x0, 0x1, 0x2, 0x3, 0x4, 0x8, 0xc, 0x1c] ∧
        (funct3 w ≠ 2 ∨ funct5 w = 2 ∧ rs2 w ≠ 0)
  | _ => False

/-! ## The tables of the instruction set -/

section Tables

variable {f3 f5 f7 : Nat}

theorem immOp_eq_none (h : f3 < 8) : immOp f3 = none ↔ f3 = 1 ∨ f3 = 5 := by
  interval_cases f3 <;> simp [immOp]

theorem shiftOp_eq_none :
    shiftOp f3 f7 = none ↔ ¬ (f7 = 0 ∧ (f3 = 1 ∨ f3 = 5) ∨ f7 = 0x20 ∧ f3 = 5) := by
  unfold shiftOp
  split <;> simp_all
  omega

theorem regOp_eq_none (h : f3 < 8) :
    regOp f3 f7 = none ↔ ¬ (f7 = 0 ∧ f3 ≠ 1 ∧ f3 ≠ 5 ∨ f7 = 0x20 ∧ f3 = 0) := by
  unfold regOp
  split <;> simp_all
  omega

theorem mulOp_isSome (h : f3 < 8) : ∃ op, mulOp f3 = some op := by
  interval_cases f3 <;> exact ⟨_, rfl⟩

/-- What the translators of `OP` accept. -/
theorem opTemplate_isSome_iff (h : f3 < 8) : (∃ template, opTemplate f3 f7 = some template) ↔
    f7 % 4 = 0 ∧ (f3 = 0 ∨ f3 = 5 → f7 = 0 ∨ f7 = 0x20) ∨ f7 % 4 = 1 := by
  obtain ⟨op, hop⟩ := mulOp_isSome h
  rw [← Option.isSome_iff_exists]
  unfold opTemplate
  rw [hop]
  interval_cases f3 <;> simp <;> split_ifs <;> simp <;> omega

end Tables

section Unchecked

variable {w address : Word} {b : TranslatedBlock}

theorem funct3_lt (w : Word) : funct3 w < 8 := field_lt w 12 3

/-- A word with an unchecked field is not a legal one. -/
theorem decode_of_unchecked (h : Unchecked w) : decode w = none := by
  have h3 := funct3_lt w
  unfold Unchecked at h
  split at h
  next hop => simp [decode, hop, h]
  next hop =>
    have himm : immOp (funct3 w) = none := (immOp_eq_none h3).mpr (by omega)
    have hshift : shiftOp (funct3 w) (funct7 w) = none := shiftOp_eq_none.mpr (by omega)
    simp [decode, hop, decodeOpImm, himm, hshift]
  next hop =>
    have hreg : regOp (funct3 w) (funct7 w) = none := (regOp_eq_none h3).mpr (by omega)
    have hshift : shiftOp (funct3 w) (funct7 w) = none := shiftOp_eq_none.mpr (by omega)
    have hmul : funct7 w ≠ 1 := by omega
    simp [decode, hop, decodeOp, hmul, hreg, hshift]
  next hop =>
    obtain ⟨-, h2, hw⟩ := h
    have hbreak : w ≠ 0x00100073 := by
      rintro rfl
      revert h2
      decide
    simp only [decode, hop]
    rw [decodeSystem, if_neg hw, if_neg hbreak]
  next hop =>
    obtain ⟨-, hwidth | ⟨h5, h2⟩⟩ := h
    · simp [decode, hop, decodeAmo, hwidth]
    · simp [decode, hop, decodeAmo, h5, h2]
  next => exact h.elim

/-- A word with an unchecked field is translated. -/
theorem translate_of_unchecked (address : Word) (h : Unchecked w) :
    ∃ b, translate address w = .ok b := by
  have h3 := funct3_lt w
  unfold Unchecked at h
  split at h
  next hop => exact ⟨_, translate_jalr hop⟩
  next hop =>
    rw [translate_opImm hop]
    dsimp only
    split
    next => exact ⟨_, rfl⟩
    next => split_ifs <;> exact ⟨_, rfl⟩
  next hop =>
    have haccept :
        funct7 w % 4 = 0 ∧ (funct3 w = 0 ∨ funct3 w = 5 → funct7 w = 0 ∨ funct7 w = 0x20) ∨
          funct7 w % 4 = 1 := by omega
    obtain ⟨template, htemplate⟩ := (opTemplate_isSome_iff h3).mpr haccept
    rw [translate_op hop, htemplate]
    exact ⟨_, rfl⟩
  next hop =>
    rw [translate_system hop, if_pos ⟨h.1, h.2.1⟩]
    exact ⟨_, rfl⟩
  next hop =>
    rw [translate_amo hop, if_pos h.1]
    exact ⟨_, rfl⟩
  next => exact h.elim

/-! The encodings whose fields are tested, for the opcodes with more than one table. -/

theorem decodeOpImm_of_checked (h : ¬ (funct3 w = 1 ∧ funct7 w ≠ 0 ∨
    funct3 w = 5 ∧ funct7 w ≠ 0 ∧ funct7 w ≠ 0x20)) : ∃ i, decodeOpImm w = some i := by
  unfold decodeOpImm
  cases himm : immOp (funct3 w) with
  | some op => exact ⟨_, rfl⟩
  | none =>
    have hf3 := (immOp_eq_none (funct3_lt w)).mp himm
    cases hshift : shiftOp (funct3 w) (funct7 w) with
    | some op => exact ⟨_, rfl⟩
    | none =>
      have hnone := shiftOp_eq_none.mp hshift
      omega

theorem decodeOp_of_checked
    (haccept : ∃ template, opTemplate (funct3 w) (funct7 w) = some template)
    (h : ¬ (funct7 w % 4 = 0 ∧ funct7 w ≠ 0 ∧ funct3 w ≠ 0 ∧ funct3 w ≠ 5 ∨
      funct7 w % 4 = 1 ∧ funct7 w ≠ 1)) : ∃ i, decodeOp w = some i := by
  have h3 := funct3_lt w
  rw [opTemplate_isSome_iff h3] at haccept
  unfold decodeOp
  split
  next =>
    obtain ⟨op, hop⟩ := mulOp_isSome h3
    rw [hop]
    exact ⟨_, rfl⟩
  next hmul =>
    cases hreg : regOp (funct3 w) (funct7 w) with
    | some op => exact ⟨_, rfl⟩
    | none =>
      have hnone := (regOp_eq_none h3).mp hreg
      cases hshift : shiftOp (funct3 w) (funct7 w) with
      | some op => exact ⟨_, rfl⟩
      | none =>
        have hnone' := shiftOp_eq_none.mp hshift
        omega

theorem decodeMiscMem_of_handler {template : Template}
    (h : fenceHandlers (byteField w 12 7) = some template) : ∃ i, decodeMiscMem w = some i := by
  simp only [fenceHandlers, funct3_eq] at h
  split at h
  next h0 =>
    rw [decodeMiscMem, h0]
    exact ⟨_, rfl⟩
  next h1 =>
    rw [decodeMiscMem, h1]
    exact ⟨_, rfl⟩
  next => cases h

theorem decodeAmo_of_checked (hmem : funct5 w ∈ [0x0, 0x1, 0x2, 0x3, 0x4, 0x8, 0xc, 0x1c])
    (h : ¬ (funct3 w ≠ 2 ∨ funct5 w = 2 ∧ rs2 w ≠ 0)) : ∃ i, decodeAmo w = some i := by
  have hwidth : funct3 w = 2 := by
    by_contra hne
    exact h (Or.inl hne)
  have hlr : funct5 w = 2 → rs2 w = 0 := by
    intro h5
    by_contra hne
    exact h (Or.inr ⟨h5, hne⟩)
  rw [decodeAmo, if_pos hwidth]
  simp only [List.mem_cons, List.not_mem_nil, or_false] at hmem
  rcases hmem with h5 | h5 | h5 | h5 | h5 | h5 | h5 | h5 <;> simp [h5, hlr, amoOp]

/-- A word without an unchecked field that is translated is a legal one. -/
theorem decode_of_translate (h : translate address w = .ok b) (hw : ¬ Unchecked w) :
    ∃ i, decode w = some i := by
  unfold Unchecked at hw
  unfold decode
  split
  next => exact ⟨_, rfl⟩
  next => exact ⟨_, rfl⟩
  next => exact ⟨_, rfl⟩
  next hop =>
    simp only [hop] at hw
    exact ⟨_, if_pos (not_not.mp hw)⟩
  next hop =>
    obtain ⟨op, hok, -⟩ := bind_eq_ok.mp ((translate_branch hop).symm.trans h)
    rw [require_eq_ok.mp hok]
    exact ⟨_, rfl⟩
  next hop =>
    obtain ⟨op, hok, -⟩ := bind_eq_ok.mp ((translate_load hop).symm.trans h)
    rw [require_eq_ok.mp hok]
    exact ⟨_, rfl⟩
  next hop =>
    obtain ⟨op, hok, -⟩ := bind_eq_ok.mp ((translate_store hop).symm.trans h)
    rw [require_eq_ok.mp hok]
    exact ⟨_, rfl⟩
  next hop =>
    simp only [hop] at hw
    exact decodeOpImm_of_checked hw
  next hop =>
    simp only [hop] at hw
    obtain ⟨template, hok, -⟩ := bind_eq_ok.mp ((translate_op hop).symm.trans h)
    exact decodeOp_of_checked ⟨template, require_eq_ok.mp hok⟩ hw
  next hop =>
    obtain ⟨template, hok, -⟩ := bind_eq_ok.mp ((translate_miscMem hop).symm.trans h)
    exact decodeMiscMem_of_handler (require_eq_ok.mp hok)
  next hop =>
    simp only [hop] at hw
    rw [translate_system hop] at h
    split at h
    next hsys =>
      have heq : w = 0x73 := by
        by_contra hne
        exact hw ⟨hsys.1, hsys.2, hne⟩
      exact ⟨.ecall, if_pos heq⟩
    next => cases h
  next hop =>
    simp only [hop] at hw
    rw [translate_amo hop] at h
    split at h
    next hmem =>
      exact decodeAmo_of_checked hmem fun hfields => hw ⟨hmem, hfields⟩
    next => cases h
  next =>
    have hnone : translators (bits w 0 0x7f) = none := by
      unfold translators
      rw [opcode_eq]
      split <;> simp_all
    rw [translate, hnone] at h
    cases h

/-- An empty cache has room. -/
theorem unoccupiedCacheSize_initial (t : Translation jumper) :
    ¬ unoccupiedCacheSize jumper .initial < t.block.size := by
  have hfits := t.fits
  rw [unoccupiedCacheSize, if_pos (by decide)]
  show ¬ (translationCacheSize : Int) - (0 : Nat) - jumper.size < t.block.size
  omega

/-- A commit on an empty cache goes through. -/
theorem commitTranslation_initial (address : Word) (t : Translation jumper) :
    ∃ tc, commitTranslation .initial address t = .ok tc := by
  let item : MappingItem := ⟨address, BitVec.ofNat 32 0⟩
  have hsort : insertionSort comparingMappingItem [item] = .ok [item] := rfl
  have hadd : addTranslationItem jumper .initial address t.block =
      .ok (0, ⟨[item], memcpy (fun _ => 0) 0 t.block.byte t.block.size, 0 + t.block.size⟩) := by
    rw [addTranslationItem, if_neg (unoccupiedCacheSize_initial t), if_neg (by decide)]
    exact bind_eq_ok.mpr ⟨[item], hsort, rfl⟩
  have hsearch (code : Nat → Byte) (ptr : Nat) :
      searchTranslationItem ⟨[item], code, ptr⟩ address = .ok (some item) := by
    simp [searchTranslationItem, search, searchLoop, elem, comparingMappingItem, item]
  rw [commitTranslation, hadd, ok_bind]
  simp only [hsearch, ok_bind, check, item, if_true]
  exact ⟨_, rfl⟩

/-- The first instruction of a unit on an empty cache is committed. -/
theorem prefetchOneInstruction_initial {guest : GuestCode jumper} {t : Translation jumper}
    (h : guest 0 = some t) :
    ∃ out, prefetchOneInstruction guest .initial ⟨0, false, true⟩ = .ok out := by
  obtain ⟨tc, hcommit⟩ := commitTranslation_initial 0 t
  unfold prefetchOneInstruction
  simp only [h]
  rw [if_neg (unoccupiedCacheSize_initial t), translateInstruction, hcommit, ok_bind]
  split <;> exact ⟨_, rfl⟩

theorem opTemplate_nrParams {f3 f7 : Nat} {template : Template}
    (h : opTemplate f3 f7 = some template) : template.nrParams = 3 := by
  unfold opTemplate mulOp at h
  split at h
  next => split at h <;> (try split_ifs at h) <;> cases h <;> rfl
  next =>
    split_ifs at h
    split at h <;> cases h <;> rfl

theorem block_nrParams {i : Instruction} (h : i.block address = some b) :
    b.params.length = b.template.nrParams := by
  cases i with
  | branch op | load op | store op | opImm op | shiftImm op | opReg op | shift op | mul op =>
    cases h
    cases op <;> rfl
  | amo op => cases op <;> cases h <;> rfl
  | ebreak => cases h
  | _ =>
    cases h
    rfl

/-- A translator writes the parameters that its template has. -/
theorem translate_nrParams (h : translate address w = .ok b) :
    b.params.length = b.template.nrParams := by
  by_cases hw : Unchecked w
  · unfold Unchecked at hw
    split at hw
    next hop =>
      rw [translate_jalr hop] at h
      cases h
      rfl
    next hop =>
      rw [translate_opImm hop] at h
      dsimp only at h
      split at h
      next op _ =>
        cases h
        cases op <;> rfl
      next => split_ifs at h <;> cases h <;> rfl
    next hop =>
      obtain ⟨template, hok, h⟩ := bind_eq_ok.mp ((translate_op hop).symm.trans h)
      cases h
      exact (opTemplate_nrParams (require_eq_ok.mp hok)).symm
    next hop =>
      rw [translate_system hop] at h
      split at h
      · cases h
        rfl
      · cases h
    next hop =>
      rw [translate_amo hop] at h
      split at h
      · cases h
        rfl
      · cases h
    next => exact hw.elim
  · obtain ⟨i, hi⟩ := decode_of_translate h hw
    rw [translate_of_decode hi] at h
    exact block_nrParams (require_eq_ok.mp h)

end Unchecked

/-! ## Only legal words -/

/-- Whenever the word is committed, in any state of the cache and of the unit, it is a
legal word and the block is the one of its instruction. -/
def OnlyLegal (w : Word) : Prop :=
  ∀ {jumper : Block} (asm : Assembly jumper) (fetch : Word → Option Word)
    (tc : TranslationCache) (blob : PrefetchBlob) (b : TranslatedBlock),
    fetch blob.nextInstructionToFetch = some w → asm.Commits fetch tc blob b →
      ∃ i, decode w = some i ∧ i.block blob.nextInstructionToFetch = some b

/-- A word without an unchecked field is committed only as the instruction it
encodes. -/
theorem onlyLegal_of_checked {w : Word} (hw : ¬ Unchecked w) : OnlyLegal w := by
  intro jumper asm fetch tc blob b hfetch hcommits
  obtain ⟨w', hfetch', htranslate⟩ := hcommits.dispatched
  obtain rfl : w = w' := Option.some.inj (hfetch.symm.trans hfetch')
  obtain ⟨i, hi⟩ := decode_of_translate htranslate hw
  refine ⟨i, hi, ?_⟩
  rw [translate_of_decode hi] at htranslate
  exact require_eq_ok.mp htranslate

/-- Templates of 16 bytes. -/
def nopAssembly : Assembly vmmJumper where
  block _ := ⟨16, fun _ => 0x90, by decide⟩
  fits _ := by decide
  params_fit template := by cases template <;> decide

/-- A word that is translated is committed by the first round on an empty cache. -/
theorem commits_initial {w : Word} {b : TranslatedBlock} (h : translate 0 w = .ok b) :
    nopAssembly.Commits (fun _ => some w) .initial ⟨0, false, true⟩ b where
  returns := by
    have hparams := translate_nrParams h
    have hguest : nopAssembly.guestCode (fun _ => some w) 0 = nopAssembly.translation b := by
      show (match translate 0 w with
        | .ok b => nopAssembly.translation b
        | .error _ => none) = _
      rw [h]
    rw [Assembly.translation, dif_pos hparams] at hguest
    exact prefetchOneInstruction_initial hguest
  dispatched := ⟨w, rfl, h⟩
  room := fun hroom => Bool.noConfusion hroom.2

/-- Exactly the words without an unchecked field are committed only as the instruction
that they encode. -/
theorem onlyLegal_iff (w : Word) : OnlyLegal w ↔ ¬ Unchecked w := by
  refine ⟨fun h hw => ?_, onlyLegal_of_checked⟩
  obtain ⟨b, hb⟩ := translate_of_unchecked 0 hw
  obtain ⟨i, hi, -⟩ := h nopAssembly _ _ _ b rfl (commits_initial hb)
  rw [decode_of_unchecked hw] at hi
  cases hi

/-- The word `sfence.vma x0, x0` of the supervisor extension is run as an `ecall`. -/
theorem sfence_runs_as_ecall :
    translate 0 0x12000073 = .ok ⟨.ecall, [0]⟩ ∧ decode 0x12000073 = none ∧
      ¬ ∀ w, OnlyLegal w := by
  have hdecode : decode 0x12000073 = none := by decide
  refine ⟨rfl, hdecode, fun h => ?_⟩
  obtain ⟨i, hi, -⟩ := h 0x12000073 nopAssembly _ _ _ _ rfl (commits_initial rfl)
  rw [hdecode] at hi
  cases hi

end Hyrule
