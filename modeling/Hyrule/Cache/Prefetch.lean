import Hyrule.Cache.TranslationCache
import Mathlib.Data.List.Pairwise

/-!
# Prefetching guest code

`prefetch_instructions` and `vmresume` of `translation.c`.  A translation unit is
the straight line of guest code from `hart.pc` on: each instruction is
translated into a block that is appended to the cache, until an instruction that
leaves the line, an instruction that is already translated, or one that does not
fit.  Behind the last block stands a jumper, a piece of code that returns to the
VMM.

What the translator of an instruction word emits is a parameter.  A
`Translation` has the block between the two labels of the template, the
parameter words written over the end of the block, and whether the block ends
with `END_INSTRUCTION` (control falls through to the bytes behind it) or with
`TRAP_TO_VMM`.  `GuestCode` gives the translation of the instruction at each
guest address, and nothing where the fetch or the translator stops the process.

`Layout` is the invariant: the blocks of the live entries do not overlap, and
behind every block that falls through stands the block of the next instruction
or a jumper that no block overlaps.  While a unit is being translated the last
block is still open, and `next` names the instruction it waits for.

The jumper is written only if the pointer differs from the one before the call.
A call that flushes the cache and then fills it up to the old pointer writes
none, and the last block falls through to stale bytes
(`prefetchInstructions_drops_jumper`).  `UnitClash` is that case, read off the
guest code alone.  Without it the layout is kept (`layoutLaw_of_no_unitClash`).
-/

namespace Hyrule

open Lib Lib.Result

/-! ## Translations -/

/-- What the translator of an instruction word commits. -/
structure Translation (jumper : Block) where
  /-- The template between `_translation_begin` and `_translation_end`. -/
  block : Block
  /-- The words written over the parameter schema at the end of the block. -/
  params : List Word
  /-- The block ends with `END_INSTRUCTION`, not with `TRAP_TO_VMM`. -/
  fallsThrough : Bool
  fits : block.size + jumper.size ≤ translationCacheSize
  params_fit : 4 * params.length ≤ block.size

/-- The translation of the instruction at each guest address. -/
abbrev GuestCode (jumper : Block) := Word → Option (Translation jumper)

/-- The bytes of a list of words, each in little-endian order. -/
def paramByte (params : List Word) (i : Nat) : Byte :=
  ((params.getD (i / 4) 0) >>> (8 * (i % 4))).truncate 8

/-- `struct prefetch_blob`. -/
structure PrefetchBlob where
  nextInstructionToFetch : Word
  isToStop : Bool
  isFlushable : Bool

variable {jumper : Block}

/-! ## Translating one instruction -/

/-- `COMMIT_TRANSLATION`: the block is added for the address, and the parameters
are written into the block of the entry that the lookup returns. -/
def commitTranslation (tc : TranslationCache) (address : Word) (t : Translation jumper) :
    Result TranslationCache := do
  let (rc, tc) ← addTranslationItem jumper tc address t.block
  check (rc = 0)
  match ← searchTranslationItem tc address with
  | none => throw .assertion
  | some item =>
      check (item.guestPc = address)
      let paramStart := item.tcOffset.toNat + t.block.size - 4 * t.params.length
      return { tc with
        code := memcpy tc.code paramStart (paramByte t.params) (4 * t.params.length) }

/-- The body of a translator behind its `PRECHECK_TRANSLATION_CACHE`. -/
def translateInstruction (tc : TranslationCache) (blob : PrefetchBlob) (t : Translation jumper) :
    Result (TranslationCache × PrefetchBlob) := do
  let tc ← commitTranslation tc blob.nextInstructionToFetch t
  if t.fallsThrough then
    return (tc, { blob with nextInstructionToFetch := blob.nextInstructionToFetch + 4 })
  else
    return (tc, { blob with isToStop := true })

/-- `prefetch_one_instruction`.  The cache is flushed at most once, for the first
instruction of a unit. -/
def prefetchOneInstruction (guest : GuestCode jumper) (tc : TranslationCache)
    (blob : PrefetchBlob) : Result (TranslationCache × PrefetchBlob) :=
  match guest blob.nextInstructionToFetch with
  | none => throw .assertion
  | some t =>
      if unoccupiedCacheSize jumper tc < t.block.size then
        if blob.isFlushable then
          translateInstruction (flushTranslationCache tc) { blob with isFlushable := false } t
        else
          return (tc, { blob with isToStop := true })
      else
        translateInstruction tc { blob with isFlushable := false } t

/-! ## Translating a unit -/

/-- The loop of `prefetch_instructions`, for at most `fuel` instructions. -/
def prefetchLoop (guest : GuestCode jumper) : Nat → TranslationCache → PrefetchBlob →
    Result TranslationCache
  | 0, _, _ => throw .divergence
  | fuel + 1, tc, blob => do
      match ← searchTranslationItem tc blob.nextInstructionToFetch with
      | some _ => return tc
      | none =>
          let (tc, blob) ← prefetchOneInstruction guest tc blob
          if blob.isToStop then return tc else prefetchLoop guest fuel tc blob

/-- The jumper appended behind the last block. -/
def appendJumper (jumper : Block) (tc : TranslationCache) : TranslationCache :=
  { tc with
    code := memcpy tc.code tc.ptr jumper.byte jumper.size
    ptr := tc.ptr + jumper.size }

/-- `prefetch_instructions` with `hart.pc` at `pc`. -/
def prefetchInstructions (guest : GuestCode jumper) (pc : Word) (tc : TranslationCache) :
    Result TranslationCache := do
  -- A unit has at most 512 instructions: each one takes an entry of the table.
  let tc' ← prefetchLoop guest (maxInstructionsToTranslate + 2) tc ⟨pc, false, true⟩
  if tc.ptr ≠ tc'.ptr then return appendJumper jumper tc' else return tc'

/-- `vmresume` up to the jump: the cache, and the offset that control enters. -/
def vmresume (guest : GuestCode jumper) (pc : Word) (tc : TranslationCache) :
    Result (TranslationCache × Nat) := do
  let tc ← prefetchInstructions guest pc tc
  match ← searchTranslationItem tc pc with
  | none => throw .assertion
  | some item => return (tc, item.tcOffset.toNat)

/-! ## The layout of the cache -/

/-- The size of the block of the instruction at an address. -/
def GuestCode.size (guest : GuestCode jumper) (pc : Word) : Nat :=
  ((guest pc).map fun t => t.block.size).getD 0

/-- The offset behind the block of an entry. -/
def GuestCode.blockEnd (guest : GuestCode jumper) (item : MappingItem) : Nat :=
  item.tcOffset.toNat + guest.size item.guestPc

/-- The bytes of the jumper stand at an offset. -/
def JumperAt (jumper : Block) (tc : TranslationCache) (offset : Nat) : Prop :=
  ∀ i, i < jumper.size → tc.code (offset + i) = jumper.byte i

/-- A jumper at an offset below the pointer that no block overlaps. -/
def GuestCode.JumperKept (guest : GuestCode jumper) (tc : TranslationCache)
    (offset : Nat) : Prop :=
  JumperAt jumper tc offset ∧ offset + jumper.size ≤ tc.ptr ∧
    ∀ item ∈ tc.pcMappings, guest.blockEnd item ≤ offset ∨
      offset + jumper.size ≤ item.tcOffset.toNat

/-- What stands behind the block of an entry: the block of the next instruction,
a jumper, or the pointer if `next` is that instruction. -/
def GuestCode.Followed (guest : GuestCode jumper) (tc : TranslationCache) (next : Option Word)
    (item : MappingItem) : Prop :=
  (∃ item' ∈ tc.pcMappings, item'.guestPc = item.guestPc + 4 ∧
    item'.tcOffset.toNat = guest.blockEnd item) ∨
  guest.JumperKept tc (guest.blockEnd item) ∨
  (next = some (item.guestPc + 4) ∧ guest.blockEnd item = tc.ptr)

/-- The block of an entry falls through. -/
def GuestCode.Falls (guest : GuestCode jumper) (item : MappingItem) : Prop :=
  ∃ t, guest item.guestPc = some t ∧ t.fallsThrough = true

/-- The layout of the cache, with the last block open for the instruction
`next`. -/
structure GuestCode.Layout (guest : GuestCode jumper) (tc : TranslationCache)
    (next : Option Word) : Prop where
  bound : tc.ptr ≤ translationCacheSize
  translated : ∀ item ∈ tc.pcMappings, (guest item.guestPc).isSome
  below : ∀ item ∈ tc.pcMappings, guest.blockEnd item ≤ tc.ptr
  apart : tc.pcMappings.Pairwise fun a b =>
    guest.blockEnd a ≤ b.tcOffset.toNat ∨ guest.blockEnd b ≤ a.tcOffset.toNat
  followed : ∀ item ∈ tc.pcMappings, guest.Falls item → guest.Followed tc next item

theorem GuestCode.size_of_some {guest : GuestCode jumper} {pc : Word} {t : Translation jumper}
    (h : guest pc = some t) : guest.size pc = t.block.size := by
  simp [GuestCode.size, h]

theorem GuestCode.Layout.size_pos {guest : GuestCode jumper} {tc : TranslationCache}
    {next : Option Word} (h : guest.Layout tc next) {item : MappingItem}
    (hitem : item ∈ tc.pcMappings) : 0 < guest.size item.guestPc := by
  obtain ⟨t, ht⟩ := Option.isSome_iff_exists.mp (h.translated item hitem)
  rw [guest.size_of_some ht]
  exact t.block.size_pos

/-- A closed layout is open for any instruction. -/
theorem GuestCode.Layout.weaken {guest : GuestCode jumper} {tc : TranslationCache}
    (h : guest.Layout tc none) (next : Option Word) : guest.Layout tc next where
  bound := h.bound
  translated := h.translated
  below := h.below
  apart := h.apart
  followed item hitem hfalls := by
    rcases h.followed item hitem hfalls with h1 | h1 | ⟨h1, -⟩
    · exact Or.inl h1
    · exact Or.inr (Or.inl h1)
    · cases h1

theorem GuestCode.layout_flush (guest : GuestCode jumper) (tc : TranslationCache)
    (next : Option Word) : guest.Layout (flushTranslationCache tc) next where
  bound := Nat.zero_le _
  translated _ h := by simp [flushTranslationCache] at h
  below _ h := by simp [flushTranslationCache] at h
  apart := List.Pairwise.nil
  followed _ h := by simp [flushTranslationCache] at h

/-! ### Writing to the buffer -/

/-- A write outside a jumper's bytes leaves the jumper. -/
theorem JumperAt.memcpy {tc : TranslationCache} {offset : Nat} (h : JumperAt jumper tc offset)
    {start n : Nat} {src : Nat → Byte}
    (hout : offset + jumper.size ≤ start ∨ start + n ≤ offset) {tc' : TranslationCache}
    (hcode : tc'.code = Hyrule.memcpy tc.code start src n) : JumperAt jumper tc' offset := by
  intro i hi
  rw [hcode, ← h i hi]
  rcases hout with hout | hout
  · exact memcpy_of_lt (by omega)
  · exact memcpy_of_ge (by omega)

/-- A write inside the block of an entry keeps the layout. -/
theorem GuestCode.Layout.patch {guest : GuestCode jumper} {tc : TranslationCache}
    {next : Option Word} (h : guest.Layout tc next) {item : MappingItem}
    (hitem : item ∈ tc.pcMappings) {start n : Nat} {src : Nat → Byte}
    (hstart : item.tcOffset.toNat ≤ start) (hend : start + n ≤ guest.blockEnd item) :
    guest.Layout { tc with code := memcpy tc.code start src n } next where
  bound := h.bound
  translated := h.translated
  below := h.below
  apart := h.apart
  followed e he hfalls := by
    rcases h.followed e he hfalls with h1 | ⟨hjump, hbelow, hclear⟩ | h1
    · exact Or.inl h1
    · refine Or.inr (Or.inl ⟨?_, hbelow, hclear⟩)
      refine hjump.memcpy ?_ rfl
      rcases hclear item hitem with h2 | h2
      · exact Or.inr (by omega)
      · exact Or.inl (by omega)
    · exact Or.inr (Or.inr h1)

/-- A jumper at the pointer closes the layout. -/
theorem GuestCode.Layout.appendJumper {guest : GuestCode jumper} {tc : TranslationCache}
    {next : Option Word} (h : guest.Layout tc next)
    (hroom : tc.ptr + jumper.size ≤ translationCacheSize) :
    guest.Layout (Hyrule.appendJumper jumper tc) none where
  bound := hroom
  translated := h.translated
  below item hitem := Nat.le_add_right_of_le (h.below item hitem)
  apart := h.apart
  followed item hitem hfalls := by
    rcases h.followed item hitem hfalls with h1 | ⟨hjump, hbelow, hclear⟩ | ⟨-, hend⟩
    · exact Or.inl h1
    · refine Or.inr (Or.inl ⟨hjump.memcpy (Or.inl hbelow) rfl, ?_, hclear⟩)
      exact Nat.le_add_right_of_le hbelow
    · refine Or.inr (Or.inl ⟨?_, ?_, ?_⟩)
      · intro i hi
        rw [hend]
        exact memcpy_add hi
      · rw [hend]
        exact Nat.le_refl _
      · intro e he
        left
        rw [hend]
        exact h.below e he

/-- A block appended at the pointer closes the open block and may leave itself
open. -/
theorem GuestCode.Layout.add {guest : GuestCode jumper} {tc tc' : TranslationCache}
    {address : Word} {t : Translation jumper} (h : guest.Layout tc (some address))
    (ht : guest address = some t)
    (hadd : addTranslationItem jumper tc address t.block = .ok (0, tc')) :
    guest.Layout tc' (if t.fallsThrough then some (address + 4) else none) := by
  obtain ⟨hroom, hnr, m, hm, -, rfl⟩ := addTranslationItem_ok hadd
  rw [unoccupiedCacheSize, if_pos hnr] at hroom
  have hbound := h.bound
  have hoff : (BitVec.ofNat 32 tc.ptr).toNat = tc.ptr := by
    rw [BitVec.toNat_ofNat]
    unfold translationCacheSize at hbound
    omega
  set item : MappingItem := ⟨address, BitVec.ofNat 32 tc.ptr⟩ with hitem
  have hend : guest.blockEnd item = tc.ptr + t.block.size := by
    rw [GuestCode.blockEnd, hoff, guest.size_of_some ht]
  have hmem : ∀ e, e ∈ tc.pcMappings.insertIdx m item ↔ e = item ∨ e ∈ tc.pcMappings :=
    fun e => List.mem_insertIdx hm
  constructor
  · show tc.ptr + t.block.size ≤ translationCacheSize
    omega
  · intro e he
    rcases (hmem e).mp he with rfl | he
    · simp [hitem, ht]
    · exact h.translated e he
  · intro e he
    show guest.blockEnd e ≤ tc.ptr + t.block.size
    rcases (hmem e).mp he with rfl | he
    · exact Nat.le_of_eq hend
    · exact Nat.le_add_right_of_le (h.below e he)
  · refine ((List.perm_insertIdx item tc.pcMappings hm).pairwise_iff fun {a b} h => h.symm).mpr ?_
    refine List.Pairwise.cons (fun e he => ?_) h.apart
    right
    rw [hoff]
    exact h.below e he
  · intro e he hfalls
    rcases (hmem e).mp he with rfl | he
    · obtain ⟨t', ht', hfall⟩ := hfalls
      rw [ht, Option.some.injEq] at ht'
      subst ht'
      exact Or.inr (Or.inr ⟨by rw [if_pos hfall], hend⟩)
    · rcases h.followed e he hfalls with ⟨e', he', h1⟩ | ⟨hjump, hbelow, hclear⟩ | ⟨hnext, hopen⟩
      · exact Or.inl ⟨e', (hmem e').mpr (Or.inr he'), h1⟩
      · refine Or.inr (Or.inl ⟨hjump.memcpy (Or.inl hbelow) rfl, ?_, ?_⟩)
        · exact Nat.le_add_right_of_le hbelow
        · intro e' he'
          rcases (hmem e').mp he' with rfl | he'
          · exact Or.inr (by rw [hoff]; exact hbelow)
          · exact hclear e' he'
      · refine Or.inl ⟨item, (hmem item).mpr (Or.inl rfl), Option.some.inj hnext, ?_⟩
        rw [hopen, hoff]

/-! ## Translating an instruction keeps the layout -/

/-- A committed translation is an added block with a write inside a block of the
same address. -/
theorem commitTranslation_ok {tc tc' : TranslationCache} {address : Word}
    {t : Translation jumper} (h : commitTranslation tc address t = .ok tc') :
    ∃ tc₁ item, addTranslationItem jumper tc address t.block = .ok (0, tc₁) ∧
      item ∈ tc₁.pcMappings ∧ item.guestPc = address ∧
      tc' = ⟨tc₁.pcMappings,
        memcpy tc₁.code (item.tcOffset.toNat + t.block.size - 4 * t.params.length)
          (paramByte t.params) (4 * t.params.length), tc₁.ptr⟩ := by
  simp only [commitTranslation, bind_eq_ok, check_eq_ok] at h
  obtain ⟨⟨rc, tc₁⟩, hadd, ⟨⟩, hrc, r, hsearch, h⟩ := h
  cases r with
  | none => simp at h
  | some item =>
    obtain ⟨hmem, hpc⟩ := searchTranslationItem_sound hsearch
    simp only [bind_eq_ok, pure_eq_ok, Except.ok.injEq] at h
    obtain ⟨⟨⟩, -, h⟩ := h
    subst hrc
    exact ⟨tc₁, item, hadd, hmem, hpc, h.symm⟩

theorem GuestCode.Layout.commit {guest : GuestCode jumper} {tc tc' : TranslationCache}
    {address : Word} {t : Translation jumper} (h : guest.Layout tc (some address))
    (ht : guest address = some t) (hcommit : commitTranslation tc address t = .ok tc') :
    guest.Layout tc' (if t.fallsThrough then some (address + 4) else none) := by
  obtain ⟨tc₁, item, hadd, hitem, hpc, rfl⟩ := commitTranslation_ok hcommit
  have hfit := t.params_fit
  have hend : item.tcOffset.toNat + t.block.size - 4 * t.params.length + 4 * t.params.length ≤
      guest.blockEnd item := by
    rw [GuestCode.blockEnd, hpc, guest.size_of_some ht]
    omega
  exact (h.add ht hadd).patch hitem (by omega) hend

/-- The entries and the pointer after a committed translation. -/
theorem commitTranslation_entries {tc tc' : TranslationCache} {address : Word}
    {t : Translation jumper} (h : commitTranslation tc address t = .ok tc') :
    tc'.ptr = tc.ptr + t.block.size ∧ tc'.ptr + jumper.size ≤ translationCacheSize ∧
      tc'.nrTranslatedInstructions = tc.nrTranslatedInstructions + 1 ∧
      tc.nrTranslatedInstructions < maxInstructionsToTranslate ∧
      ∀ e ∈ tc'.pcMappings, e.guestPc = address ∨ e ∈ tc.pcMappings := by
  obtain ⟨tc₁, item, hadd, -, -, rfl⟩ := commitTranslation_ok h
  obtain ⟨hroom, hnr, m, hm, -, rfl⟩ := addTranslationItem_ok hadd
  rw [unoccupiedCacheSize, if_pos hnr] at hroom
  refine ⟨rfl, ?_, ?_, hnr, ?_⟩
  · show tc.ptr + t.block.size + jumper.size ≤ translationCacheSize
    omega
  · exact List.length_insertIdx_of_le_length hm _
  · intro e he
    rcases (List.mem_insertIdx hm).mp he with rfl | he
    · exact Or.inl rfl
    · exact Or.inr he

/-- What one instruction does to a unit.  Either it does not fit and stops the
unit, or it is committed, to a flushed cache if that was needed and allowed. -/
theorem prefetchOneInstruction_cases {guest : GuestCode jumper} {tc tc' : TranslationCache}
    {blob blob' : PrefetchBlob} (h : prefetchOneInstruction guest tc blob = .ok (tc', blob')) :
    ∃ t, guest blob.nextInstructionToFetch = some t ∧
      ((unoccupiedCacheSize jumper tc < t.block.size ∧ blob.isFlushable = false ∧ tc' = tc ∧
          blob'.isToStop = true) ∨
        ∃ tc₀, (t.block.size ≤ unoccupiedCacheSize jumper tc ∧ tc₀ = tc ∨
            unoccupiedCacheSize jumper tc < t.block.size ∧ blob.isFlushable = true ∧
              tc₀ = flushTranslationCache tc) ∧
          commitTranslation tc₀ blob.nextInstructionToFetch t = .ok tc' ∧
          (t.fallsThrough = true ∧
              blob' = ⟨blob.nextInstructionToFetch + 4, blob.isToStop, false⟩ ∨
            t.fallsThrough = false ∧ blob'.isToStop = true)) := by
  unfold prefetchOneInstruction at h
  split at h
  next => simp at h
  next t ht =>
    refine ⟨t, ht, ?_⟩
    have hbody : ∀ {tc₀}, translateInstruction tc₀ { blob with isFlushable := false } t =
        .ok (tc', blob') → commitTranslation tc₀ blob.nextInstructionToFetch t = .ok tc' ∧
          (t.fallsThrough = true ∧
              blob' = ⟨blob.nextInstructionToFetch + 4, blob.isToStop, false⟩ ∨
            t.fallsThrough = false ∧ blob'.isToStop = true) := by
      intro tc₀ h
      simp only [translateInstruction, bind_eq_ok] at h
      obtain ⟨tc₁, hcommit, h⟩ := h
      split at h
      next hfall =>
        simp only [pure_eq_ok, Except.ok.injEq, Prod.mk.injEq] at h
        obtain ⟨rfl, rfl⟩ := h
        exact ⟨hcommit, Or.inl ⟨hfall, rfl⟩⟩
      next hfall =>
        simp only [pure_eq_ok, Except.ok.injEq, Prod.mk.injEq] at h
        obtain ⟨rfl, rfl⟩ := h
        exact ⟨hcommit, Or.inr ⟨by simpa using hfall, rfl⟩⟩
    split at h
    next hroom =>
      split at h
      next hflush => exact Or.inr ⟨_, Or.inr ⟨hroom, hflush, rfl⟩, hbody h⟩
      next hflush =>
        simp only [pure_eq_ok, Except.ok.injEq, Prod.mk.injEq] at h
        obtain ⟨rfl, rfl⟩ := h
        exact Or.inl ⟨hroom, by simpa using hflush, rfl, rfl⟩
    next hroom => exact Or.inr ⟨tc, Or.inl ⟨by omega, rfl⟩, hbody h⟩

/-- What one round of the loop does: it finds the instruction translated, the
instruction does not fit, or the instruction is committed and the unit ends
behind it or goes on. -/
theorem prefetchLoop_cases {guest : GuestCode jumper} {fuel : Nat} {tc tc' : TranslationCache}
    {pc : Word} {flushable : Bool}
    (h : prefetchLoop guest (fuel + 1) tc ⟨pc, false, flushable⟩ = .ok tc') :
    (tc' = tc ∧ ∃ item, searchTranslationItem tc pc = .ok (some item)) ∨
    searchTranslationItem tc pc = .ok none ∧ ∃ t, guest pc = some t ∧
      ((unoccupiedCacheSize jumper tc < t.block.size ∧ flushable = false ∧ tc' = tc) ∨
        ∃ tc₀, (t.block.size ≤ unoccupiedCacheSize jumper tc ∧ tc₀ = tc ∨
            unoccupiedCacheSize jumper tc < t.block.size ∧ flushable = true ∧
              tc₀ = flushTranslationCache tc) ∧
          ∃ tc₁, commitTranslation tc₀ pc t = .ok tc₁ ∧
            (t.fallsThrough = true ∧ prefetchLoop guest fuel tc₁ ⟨pc + 4, false, false⟩ = .ok tc' ∨
              t.fallsThrough = false ∧ tc' = tc₁)) := by
  simp only [prefetchLoop, bind_eq_ok] at h
  obtain ⟨r, hsearch, h⟩ := h
  cases r with
  | some item => exact Or.inl ⟨by simpa using h.symm, item, hsearch⟩
  | none =>
    simp only [bind_eq_ok] at h
    obtain ⟨⟨tc₁, blob₁⟩, hone, h⟩ := h
    obtain ⟨t, ht, ⟨hroom, hflush, rfl, hstop⟩ | ⟨tc₀, hroom, hcommit, hend⟩⟩ :=
      prefetchOneInstruction_cases hone
    · rw [if_pos hstop] at h
      exact Or.inr ⟨hsearch, t, ht, Or.inl ⟨hroom, hflush, by simpa using h.symm⟩⟩
    · refine Or.inr ⟨hsearch, t, ht, Or.inr ⟨tc₀, hroom, tc₁, hcommit, ?_⟩⟩
      rcases hend with ⟨hfall, rfl⟩ | ⟨hfall, hstop⟩
      · exact Or.inl ⟨hfall, h⟩
      · rw [if_pos hstop] at h
        exact Or.inr ⟨hfall, by simpa using h.symm⟩

/-! ## Translating a unit keeps the layout -/

/-- What a unit leaves once the cache may no longer be flushed: the cache as it
was, or more blocks and room for a jumper behind them. -/
theorem prefetchLoop_layout {guest : GuestCode jumper} {fuel : Nat} {tc tc' : TranslationCache}
    {pc : Word} (h : prefetchLoop guest fuel tc ⟨pc, false, false⟩ = .ok tc')
    (hlayout : guest.Layout tc (some pc)) :
    (∃ next, guest.Layout tc' next) ∧
      (tc' = tc ∨ tc.ptr < tc'.ptr ∧ tc'.ptr + jumper.size ≤ translationCacheSize) := by
  induction fuel generalizing tc pc with
  | zero => simp [prefetchLoop] at h
  | succ fuel ih =>
    obtain ⟨rfl, -⟩ | ⟨-, t, ht, ⟨-, -, rfl⟩ | ⟨tc₀, hroom, tc₁, hcommit, hend⟩⟩ :=
      prefetchLoop_cases h
    · exact ⟨⟨_, hlayout⟩, Or.inl rfl⟩
    · exact ⟨⟨_, hlayout⟩, Or.inl rfl⟩
    · obtain ⟨-, rfl⟩ | ⟨-, hflush, -⟩ := hroom
      case inr => cases hflush
      have hlayout₁ := hlayout.commit ht hcommit
      obtain ⟨hptr, hroom₁, -⟩ := commitTranslation_entries hcommit
      have hpos := t.block.size_pos
      rcases hend with ⟨hfall, hrest⟩ | ⟨-, rfl⟩
      · rw [if_pos hfall] at hlayout₁
        obtain ⟨hex, rfl | ⟨hlt, hroom'⟩⟩ := ih hrest hlayout₁
        · exact ⟨hex, Or.inr ⟨by omega, hroom₁⟩⟩
        · exact ⟨hex, Or.inr ⟨by omega, hroom'⟩⟩
      · exact ⟨⟨_, hlayout₁⟩, Or.inr ⟨by omega, hroom₁⟩⟩

/-- The number of bytes of the line of code from `pc` on if the line ends open:
an instruction does not fit behind `used` bytes, or there is no entry left for
it.  There is none if the line ends with an instruction that leaves it. -/
def GuestCode.openUnit (guest : GuestCode jumper) : Nat → Word → Nat → Option Nat
  | 0, pc, used => (guest pc).map fun _ => used
  | entries + 1, pc, used =>
      match guest pc with
      | none => none
      | some t =>
          if translationCacheSize < used + t.block.size + jumper.size then some used
          else if t.fallsThrough then guest.openUnit entries (pc + 4) (used + t.block.size)
          else none

/-- The entries are the `k` instructions from `pc` on. -/
def TranslationCache.IsLine (tc : TranslationCache) (pc : Word) (k : Nat) : Prop :=
  tc.nrTranslatedInstructions = k ∧
    ∀ e ∈ tc.pcMappings, ∃ j < k, e.guestPc = pc + BitVec.ofNat 32 (4 * j)

theorem TranslationCache.IsLine.commit {tc tc' : TranslationCache} {pc : Word} {k : Nat}
    {t : Translation jumper} (h : tc.IsLine pc k)
    (hcommit : commitTranslation tc (pc + BitVec.ofNat 32 (4 * k)) t = .ok tc') :
    tc'.IsLine pc (k + 1) := by
  obtain ⟨-, -, hnr, -, hentries⟩ := commitTranslation_entries hcommit
  refine ⟨by rw [hnr, h.1], fun e he => ?_⟩
  rcases hentries e he with hpc | he
  · exact ⟨k, by omega, hpc⟩
  · obtain ⟨j, hj, hpc⟩ := h.2 e he
    exact ⟨j, by omega, hpc⟩

/-- The instruction behind a line of at most 512 is not one of the line. -/
theorem TranslationCache.IsLine.not_found {tc : TranslationCache} {pc : Word} {k : Nat}
    (h : tc.IsLine pc k) (hk : k ≤ maxInstructionsToTranslate) {item : MappingItem} :
    searchTranslationItem tc (pc + BitVec.ofNat 32 (4 * k)) ≠ .ok (some item) := by
  intro hsearch
  obtain ⟨hmem, hpc⟩ := searchTranslationItem_sound hsearch
  obtain ⟨j, hj, hpc'⟩ := h.2 item hmem
  rw [hpc] at hpc'
  have heq : BitVec.ofNat 32 (4 * k) = BitVec.ofNat 32 (4 * j) := by grind
  have := congrArg BitVec.toNat heq
  simp only [BitVec.toNat_ofNat, maxInstructionsToTranslate] at this hk
  omega

/-- A unit that goes on in a flushed cache ends closed, or at the end of the open
unit of the guest code. -/
theorem prefetchLoop_line {guest : GuestCode jumper} {fuel : Nat} {tc tc' : TranslationCache}
    {pc : Word} {k : Nat}
    (h : prefetchLoop guest fuel tc ⟨pc + BitVec.ofNat 32 (4 * k), false, false⟩ = .ok tc')
    (hline : tc.IsLine pc k) (hk : k ≤ maxInstructionsToTranslate)
    (hlayout : guest.Layout tc (some (pc + BitVec.ofNat 32 (4 * k)))) :
    guest.Layout tc' none ∨
      guest.openUnit (maxInstructionsToTranslate - k) (pc + BitVec.ofNat 32 (4 * k)) tc.ptr =
        some tc'.ptr := by
  induction fuel generalizing tc k with
  | zero => simp [prefetchLoop] at h
  | succ fuel ih =>
    have hnr := hline.1
    obtain ⟨-, item, hfound⟩ | ⟨-, t, ht, ⟨hfull, -, rfl⟩ | ⟨tc₀, hroom, tc₁, hcommit, hend⟩⟩ :=
      prefetchLoop_cases h
    · exact absurd hfound (hline.not_found hk)
    · right
      rcases Nat.lt_or_eq_of_le hk with hlt | rfl
      · rw [unoccupiedCacheSize, if_pos (by omega)] at hfull
        obtain ⟨n, hn⟩ : ∃ n, maxInstructionsToTranslate - k = n + 1 :=
          ⟨maxInstructionsToTranslate - k - 1, by omega⟩
        rw [hn, GuestCode.openUnit, ht]
        exact if_pos (by omega)
      · rw [Nat.sub_self, GuestCode.openUnit, ht]
        rfl
    · obtain ⟨hfits, rfl⟩ | ⟨-, hflush, -⟩ := hroom
      case inr => cases hflush
      have hlayout₁ := hlayout.commit ht hcommit
      have hline₁ := hline.commit hcommit
      obtain ⟨hptr, hroom₁, -, hlt, -⟩ := commitTranslation_entries hcommit
      rcases hend with ⟨hfall, hrest⟩ | ⟨hfall, rfl⟩
      · have hnext : pc + BitVec.ofNat 32 (4 * k) + 4 = pc + BitVec.ofNat 32 (4 * (k + 1)) := by
          rw [BitVec.add_assoc]
          show pc + (BitVec.ofNat 32 (4 * k) + BitVec.ofNat 32 4) = _
          rw [← BitVec.ofNat_add]
          rfl
        rw [if_pos hfall] at hlayout₁
        rw [hnext] at hrest hlayout₁
        obtain ⟨n, hn⟩ : ∃ n, maxInstructionsToTranslate - k = n + 1 :=
          ⟨maxInstructionsToTranslate - k - 1, by omega⟩
        have hn' : maxInstructionsToTranslate - (k + 1) = n := by omega
        refine (ih hrest hline₁ (by omega) hlayout₁).imp id fun hopen => ?_
        rw [hn, GuestCode.openUnit, ht]
        simp only [hfall, if_true]
        rw [if_neg (by omega), hnext, ← hn', ← hptr]
        exact hopen
      · rw [if_neg (by simp [hfall])] at hlayout₁
        exact Or.inl hlayout₁

/-- The unit at `pc` is translated into a flushed cache, ends open, and ends where
the pointer was before. -/
def GuestCode.UnitClash (guest : GuestCode jumper) (tc : TranslationCache) (pc : Word) : Prop :=
  searchTranslationItem tc pc = .ok none ∧
  (∃ t, guest pc = some t ∧ unoccupiedCacheSize jumper tc < t.block.size) ∧
  guest.openUnit maxInstructionsToTranslate pc 0 = some tc.ptr

/-- The unit behind the first block of a flushed cache. -/
theorem prefetchLoop_flushed {guest : GuestCode jumper} {fuel : Nat}
    {tc tc₁ tc' : TranslationCache} {pc : Word} {t : Translation jumper}
    (ht : guest pc = some t) (hfall : t.fallsThrough = true)
    (hcommit : commitTranslation (flushTranslationCache tc) pc t = .ok tc₁)
    (h : prefetchLoop guest fuel tc₁ ⟨pc + 4, false, false⟩ = .ok tc') :
    guest.Layout tc' none ∨
      guest.openUnit maxInstructionsToTranslate pc 0 = some tc'.ptr := by
  have hlayout := (guest.layout_flush tc (some pc)).commit ht hcommit
  rw [if_pos hfall] at hlayout
  have hzero : pc + BitVec.ofNat 32 (4 * 0) = pc := BitVec.add_zero pc
  have hline₀ : (flushTranslationCache tc).IsLine pc 0 :=
    ⟨rfl, fun e he => by simp [flushTranslationCache] at he⟩
  have hline : tc₁.IsLine pc 1 := hline₀.commit (by rw [hzero]; exact hcommit)
  obtain ⟨hptr, hroom, -⟩ := commitTranslation_entries hcommit
  have hptr₀ : (flushTranslationCache tc).ptr = 0 := rfl
  refine (prefetchLoop_line (k := 1) h hline (by decide) hlayout).imp id fun hopen => ?_
  show guest.openUnit (511 + 1) pc 0 = _
  rw [GuestCode.openUnit, ht]
  simp only [hfall, if_true]
  rw [if_neg (by omega), ← hptr₀, ← hptr]
  exact hopen

/-- `prefetch_instructions` keeps a closed layout, unless the unit clashes. -/
theorem GuestCode.Layout.prefetch {guest : GuestCode jumper} {tc tc' : TranslationCache}
    {pc : Word} (h : guest.Layout tc none) (hclash : ¬ guest.UnitClash tc pc)
    (hcall : prefetchInstructions guest pc tc = .ok tc') : guest.Layout tc' none := by
  simp only [prefetchInstructions, bind_eq_ok] at hcall
  obtain ⟨tc₂, hloop, hcall⟩ := hcall
  have hsame : tc.ptr = tc₂.ptr → tc' = tc₂ := fun heq => by
    rw [if_neg (by simp [heq])] at hcall
    simpa using hcall.symm
  have hmoved : tc.ptr ≠ tc₂.ptr → tc' = Hyrule.appendJumper jumper tc₂ := fun hne => by
    rw [if_pos hne] at hcall
    simpa using hcall.symm
  obtain ⟨rfl, -⟩ | ⟨hsearch, t, ht, ⟨-, hflush, -⟩ | ⟨tc₀, hroom, tc₁, hcommit, hend⟩⟩ :=
    prefetchLoop_cases hloop
  · exact hsame rfl ▸ h
  · cases hflush
  · have hlayout₀ : guest.Layout tc₀ (some pc) := by
      obtain ⟨-, rfl⟩ | ⟨-, -, rfl⟩ := hroom
      · exact h.weaken _
      · exact guest.layout_flush tc _
    have hlayout₁ := hlayout₀.commit ht hcommit
    obtain ⟨hptr, hroom₁, -⟩ := commitTranslation_entries hcommit
    have hpos := t.block.size_pos
    have hend₂ : (∃ next, guest.Layout tc₂ next) ∧ tc₁.ptr ≤ tc₂.ptr ∧
        tc₂.ptr + jumper.size ≤ translationCacheSize := by
      rcases hend with ⟨hfall, hrest⟩ | ⟨-, rfl⟩
      · rw [if_pos hfall] at hlayout₁
        obtain ⟨hex, rfl | ⟨hlt, hroom'⟩⟩ := prefetchLoop_layout hrest hlayout₁
        · exact ⟨hex, Nat.le_refl _, hroom₁⟩
        · exact ⟨hex, Nat.le_of_lt hlt, hroom'⟩
      · exact ⟨⟨_, hlayout₁⟩, Nat.le_refl _, hroom₁⟩
    obtain ⟨⟨next, hlayout₂⟩, hle, hroom₂⟩ := hend₂
    by_cases hne : tc.ptr = tc₂.ptr
    case neg => exact hmoved hne ▸ hlayout₂.appendJumper hroom₂
    -- The pointer is back where it was, so the cache has been flushed.
    rw [hsame hne]
    obtain ⟨-, rfl⟩ | ⟨hfull, -, rfl⟩ := hroom
    · omega
    · rcases hend with ⟨hfall, hrest⟩ | ⟨hfall, rfl⟩
      · refine (prefetchLoop_flushed ht hfall hcommit hrest).resolve_right fun hopen => ?_
        exact hclash ⟨hsearch, ⟨t, ht, hfull⟩, hne ▸ hopen⟩
      · rwa [if_neg (by simp [hfall])] at hlayout₁

/-! ## Runs -/

/-- The runs of `vmresume` on one hart, up to each return of
`prefetch_instructions`.  The label is `hart.pc`. -/
def resumeRuns (guest : GuestCode jumper) : System TranslationCache Word where
  init tc := tc = .initial
  step tc pc tc' := prefetchInstructions guest pc tc = .ok tc'

/-- Behind every live block that falls through stands the live block of the next
instruction, or the jumper. -/
def GuestCode.LayoutLaw (guest : GuestCode jumper) (tc : TranslationCache) : Prop :=
  ∀ item ∈ tc.pcMappings, guest.Falls item →
    (∃ item' ∈ tc.pcMappings, item'.guestPc = item.guestPc + 4 ∧
      item'.tcOffset.toNat = guest.blockEnd item) ∨
    JumperAt jumper tc (guest.blockEnd item)

/-- The offsets control comes to inside the cache, with `hart.pc` there.  A block
that falls through adds 4 to `hart.pc`, whatever instruction it was made for. -/
inductive GuestCode.Control (guest : GuestCode jumper) (tc : TranslationCache) :
    Nat → Word → Prop where
  | enter {tc₀ : TranslationCache} {pc : Word} {offset : Nat} :
      vmresume guest pc tc₀ = .ok (tc, offset) → guest.Control tc offset pc
  | fall {pc : Word} {item : MappingItem} : guest.Control tc item.tcOffset.toNat pc →
      item ∈ tc.pcMappings → guest.Falls item → guest.Control tc (guest.blockEnd item) (pc + 4)

/-- Control stands at a live block of `hart.pc` or at the jumper, and inside no
other live block. -/
def GuestCode.ControlLaw (guest : GuestCode jumper) (tc : TranslationCache) : Prop :=
  ∀ offset pc, guest.Control tc offset pc →
    ((∃ item ∈ tc.pcMappings, item.tcOffset.toNat = offset ∧ item.guestPc = pc) ∨
      JumperAt jumper tc offset) ∧
    ∀ item ∈ tc.pcMappings, item.tcOffset.toNat ≤ offset → offset < guest.blockEnd item →
      item.tcOffset.toNat = offset ∧ item.guestPc = pc

theorem GuestCode.Layout.layoutLaw {guest : GuestCode jumper} {tc : TranslationCache}
    (h : guest.Layout tc none) : guest.LayoutLaw tc := by
  intro item hitem hfalls
  rcases h.followed item hitem hfalls with h1 | ⟨h1, -⟩ | ⟨h1, -⟩
  · exact Or.inl h1
  · exact Or.inr h1
  · cases h1

/-- Two live entries whose blocks share an offset are one entry. -/
theorem GuestCode.Layout.eq_of_overlap {guest : GuestCode jumper} {tc : TranslationCache}
    {next : Option Word} (h : guest.Layout tc next) {a b : MappingItem}
    (ha : a ∈ tc.pcMappings) (hb : b ∈ tc.pcMappings)
    (hab : a.tcOffset.toNat < guest.blockEnd b) (hba : b.tcOffset.toNat < guest.blockEnd a) :
    a = b := by
  by_contra hne
  have : Std.Symm fun a b : MappingItem =>
      guest.blockEnd a ≤ b.tcOffset.toNat ∨ guest.blockEnd b ≤ a.tcOffset.toNat :=
    ⟨fun _ _ h => h.symm⟩
  rcases h.apart.forall ha hb hne with h1 | h1
  · omega
  · omega

/-- Control comes only to live blocks of `hart.pc` and to jumpers. -/
theorem GuestCode.Layout.control {guest : GuestCode jumper} {tc : TranslationCache}
    (h : guest.Layout tc none) {offset : Nat} {pc : Word} (hcontrol : guest.Control tc offset pc) :
    (∃ item ∈ tc.pcMappings, item.tcOffset.toNat = offset ∧ item.guestPc = pc) ∨
      guest.JumperKept tc offset := by
  induction hcontrol with
  | @enter tc₀ pc offset henter =>
    simp only [vmresume, bind_eq_ok] at henter
    obtain ⟨tc₁, -, r, hsearch, henter⟩ := henter
    cases r with
    | none => simp at henter
    | some item =>
      simp only [pure_eq_ok, Except.ok.injEq, Prod.mk.injEq] at henter
      obtain ⟨rfl, rfl⟩ := henter
      obtain ⟨hmem, hpc⟩ := searchTranslationItem_sound hsearch
      exact Or.inl ⟨item, hmem, rfl, hpc⟩
  | @fall pc item _ hitem hfalls ih =>
    have hpos := h.size_pos hitem
    have hjumper := jumper.size_pos
    rcases ih with ⟨item', hitem', hoff, rfl⟩ | ⟨-, -, hclear⟩
    · have hpos' := h.size_pos hitem'
      obtain rfl : item' = item := h.eq_of_overlap hitem' hitem
        (by rw [GuestCode.blockEnd]; omega) (by rw [GuestCode.blockEnd]; omega)
      rcases h.followed item' hitem hfalls with ⟨e, he, hpc, hstart⟩ | h1 | ⟨h1, -⟩
      · exact Or.inl ⟨e, he, hstart, hpc⟩
      · exact Or.inr h1
      · cases h1
    · rcases hclear item hitem with h1 | h1
      · rw [GuestCode.blockEnd] at h1
        omega
      · omega

theorem GuestCode.Layout.controlLaw {guest : GuestCode jumper} {tc : TranslationCache}
    (h : guest.Layout tc none) : guest.ControlLaw tc := by
  intro offset pc hcontrol
  have hjumper := jumper.size_pos
  rcases h.control hcontrol with ⟨item, hitem, hoff, hpc⟩ | ⟨hjump, -, hclear⟩
  · refine ⟨Or.inl ⟨item, hitem, hoff, hpc⟩, fun e he hstart hend => ?_⟩
    have hpos := h.size_pos hitem
    obtain rfl : e = item := h.eq_of_overlap he hitem
      (by rw [GuestCode.blockEnd]; omega) (by omega)
    exact ⟨hoff, hpc⟩
  · refine ⟨Or.inr hjump, fun e he hstart hend => ?_⟩
    rcases hclear e he with h1 | h1
    · omega
    · omega

theorem GuestCode.layout_of_no_clash {guest : GuestCode jumper} {tc : TranslationCache}
    (h : ((resumeRuns guest).restrict fun tc pc => ¬ guest.UnitClash tc pc).Reachable tc) :
    guest.Layout tc none := by
  refine h.invariant (P := fun tc => guest.Layout tc none) ?_ ?_
  · rintro tc rfl
    exact guest.layout_flush .initial none
  · rintro tc pc tc' hlayout ⟨hclash, hstep⟩
    exact hlayout.prefetch hclash hstep

/-- In every run without a clashing unit the layout law holds after each return of
`prefetch_instructions`, and control stays in blocks of `hart.pc`. -/
theorem layoutLaw_of_no_unitClash (guest : GuestCode jumper) {tc : TranslationCache}
    (h : ((resumeRuns guest).restrict fun tc pc => ¬ guest.UnitClash tc pc).Reachable tc) :
    guest.LayoutLaw tc ∧ guest.ControlLaw tc :=
  ⟨(GuestCode.layout_of_no_clash h).layoutLaw, (GuestCode.layout_of_no_clash h).controlLaw⟩

/-- A straight line of instructions, with the sizes of the blocks from `pc` on. -/
def lineCode (pc : Word) : List (Translation jumper) → GuestCode jumper
  | [], _ => none
  | t :: ts, q => if q = pc then some t else lineCode (pc + 4) ts q

/-- A translation of `n + 1` bytes that falls through. -/
def longNop (n : Nat) (h : n + 1 + 9 ≤ translationCacheSize) : Translation vmmJumper where
  block := ⟨n + 1, fun _ => 0x90, Nat.succ_pos n⟩
  params := []
  fallsThrough := true
  fits := h
  params_fit := Nat.zero_le _

/-- Four instructions whose blocks have 40000, 30000, 10009 and 40000 bytes. -/
def clashingCode : GuestCode vmmJumper :=
  lineCode 0x10000 [longNop 39999 (by decide), longNop 29999 (by decide),
    longNop 10008 (by decide), longNop 39999 (by decide)]

/-- Four instructions whose blocks have 40000, 30000, 10000 and 40000 bytes. -/
def steadyCode : GuestCode vmmJumper :=
  lineCode 0x10000 [longNop 39999 (by decide), longNop 29999 (by decide),
    longNop 9999 (by decide), longNop 39999 (by decide)]

/-- A unit of one block, and a unit of two that flushes it: with the jumper behind the second
one the cache ends where it ended before, but the unit ends in front of it. -/
theorem layoutLaw_of_no_unitClash_flushed :
    ∃ tc, ((resumeRuns steadyCode).restrict
        fun tc pc => ¬ steadyCode.UnitClash tc pc).Reachable tc ∧
      tc.pcMappings = [⟨0x10004, 0⟩, ⟨0x10008, 30000⟩] ∧ tc.ptr = 40009 ∧
      steadyCode.LayoutLaw tc ∧ steadyCode.ControlLaw tc := by
  have hrun : (do
      let tc₁ ← prefetchInstructions steadyCode 0x10000 .initial
      let tc ← prefetchInstructions steadyCode 0x10004 tc₁
      return (tc₁.ptr, tc.pcMappings, tc.ptr)) =
        .ok (40009, [⟨0x10004, 0⟩, ⟨0x10008, 30000⟩], 40009) := by
    decide +kernel
  simp only [bind_eq_ok, pure_eq_ok, Except.ok.injEq, Prod.mk.injEq] at hrun
  obtain ⟨tc₁, hfirst, tc, hsecond, hptr₁, hentries, hptr⟩ := hrun
  have hroom : ¬ steadyCode.UnitClash .initial 0x10000 := by
    rintro ⟨-, ⟨t, ht, hlt⟩, -⟩
    obtain rfl : longNop 39999 (by decide) = t := Option.some.inj ht
    revert hlt
    decide +kernel
  have hends : ¬ steadyCode.UnitClash tc₁ 0x10004 := by
    rintro ⟨-, -, hopen⟩
    have hunit : steadyCode.openUnit maxInstructionsToTranslate 0x10004 0 = some 40000 := by
      decide +kernel
    rw [hunit, hptr₁] at hopen
    cases hopen
  have hreach : ((resumeRuns steadyCode).restrict
      fun tc pc => ¬ steadyCode.UnitClash tc pc).Reachable tc :=
    .step (.step (.init rfl) ⟨hroom, hfirst⟩) ⟨hends, hsecond⟩
  exact ⟨tc, hreach, hentries, hptr, layoutLaw_of_no_unitClash _ hreach⟩

/-- Translating the first instruction of `clashingCode` and then the second leaves
the third without a jumper: the flushed cache is filled up to the old pointer,
and the byte there is not the first one of the jumper. -/
theorem prefetchInstructions_drops_jumper :
    ¬ ∀ tc, (resumeRuns clashingCode).Reachable tc →
      clashingCode.LayoutLaw tc ∧ clashingCode.ControlLaw tc := by
  intro h
  have hrun : (do
      let tc ← prefetchInstructions clashingCode 0x10000 .initial
      let tc' ← prefetchInstructions clashingCode 0x10004 tc
      return (tc'.pcMappings, tc'.code 40009)) =
        .ok ([⟨0x10004, 0⟩, ⟨0x10008, 30000⟩], 0) := by
    decide +kernel
  simp only [bind_eq_ok, pure_eq_ok, Except.ok.injEq, Prod.mk.injEq] at hrun
  obtain ⟨tc₁, hfirst, tc, hsecond, hentries, hbyte⟩ := hrun
  have hreach : (resumeRuns clashingCode).Reachable tc := .step (.step (.init rfl) hfirst) hsecond
  have hend : clashingCode.blockEnd ⟨0x10008, 30000⟩ = 40009 := by decide +kernel
  rcases (h tc hreach).1 ⟨0x10008, 30000⟩ (by simp [hentries]) ⟨_, rfl, rfl⟩ with hnext | hjump
  · obtain ⟨item, hitem, hpc, -⟩ := hnext
    rw [hentries] at hitem
    revert item
    decide
  · have hfirst := hjump 0 (by decide)
    rw [hend, Nat.add_zero, hbyte] at hfirst
    revert hfirst
    decide

/-! ## The loop ends -/

theorem addTranslationItem_returns (jumper : Block) (tc : TranslationCache) (address : Word)
    (block : Block) :
    ∃ r, addTranslationItem jumper tc address block = .ok r := by
  unfold addTranslationItem
  split
  next => exact ⟨_, rfl⟩
  next =>
    split
    next => exact ⟨_, rfl⟩
    next =>
      obtain ⟨m, -, hsort⟩ := insertionSort_spec (comparingMappingItem_answers
        (tc.pcMappings ++ [⟨address, BitVec.ofNat 32 tc.ptr⟩])
        ⟨address, BitVec.ofNat 32 tc.ptr⟩)
      simp only [hsort, ok_bind, pure_eq_ok]
      exact ⟨_, rfl⟩

/-- A translation is committed or stops at an assertion. -/
theorem commitTranslation_error {tc : TranslationCache} {address : Word}
    {t : Translation jumper} {e : Fault} (h : commitTranslation tc address t = .error e) :
    e = .assertion := by
  obtain ⟨⟨rc, tc₁⟩, hadd⟩ := addTranslationItem_returns jumper tc address t.block
  obtain ⟨r, hsearch⟩ := searchTranslationItem_returns tc₁ address
  simp only [commitTranslation, hadd, hsearch, ok_bind, bind_eq_error, check_eq_error] at h
  rcases h with ⟨-, h⟩ | ⟨-, -, h⟩
  · exact h
  · cases r with
    | none => simpa using h.symm
    | some item =>
      simp only [bind_eq_error, check_eq_error, pure_eq_ok] at h
      rcases h with ⟨-, h⟩ | ⟨-, -, h⟩
      · exact h
      · cases h

theorem prefetchOneInstruction_error {guest : GuestCode jumper} {tc : TranslationCache}
    {blob : PrefetchBlob} {e : Fault} (h : prefetchOneInstruction guest tc blob = .error e) :
    e = .assertion := by
  have hbody : ∀ {tc₀ blob₀} {t : Translation jumper},
      translateInstruction tc₀ blob₀ t = .error e → e = .assertion := by
    intro tc₀ blob₀ t h
    simp only [translateInstruction, bind_eq_error] at h
    rcases h with h | ⟨tc₁, -, h⟩
    · exact commitTranslation_error h
    · split at h <;> cases h
  unfold prefetchOneInstruction at h
  split at h
  next => simpa using h.symm
  next =>
    split at h
    next =>
      split at h
      next => exact hbody h
      next => cases h
    next => exact hbody h

/-- A loop that fails has failed an assertion in its first round, or fails behind
a committed instruction. -/
theorem prefetchLoop_error_cases {guest : GuestCode jumper} {fuel : Nat}
    {tc : TranslationCache} {blob : PrefetchBlob} {e : Fault}
    (h : prefetchLoop guest (fuel + 1) tc blob = .error e) :
    e = .assertion ∨ ∃ tc₀ tc₁ blob₁, (tc₀ = tc ∨ blob.isFlushable = true) ∧
      tc₀.nrTranslatedInstructions < maxInstructionsToTranslate ∧
      tc₁.nrTranslatedInstructions = tc₀.nrTranslatedInstructions + 1 ∧
      blob₁.isFlushable = false ∧ prefetchLoop guest fuel tc₁ blob₁ = .error e := by
  obtain ⟨r, hsearch⟩ := searchTranslationItem_returns tc blob.nextInstructionToFetch
  rw [prefetchLoop, hsearch, ok_bind] at h
  cases r with
  | some item => cases h
  | none =>
    rcases bind_eq_error.mp h with h | ⟨⟨tc₁, blob₁⟩, hone, h⟩
    · exact Or.inl (prefetchOneInstruction_error h)
    · replace h : (if blob₁.isToStop = true then pure tc₁ else prefetchLoop guest fuel tc₁ blob₁) =
        .error e := h
      obtain ⟨t, -, ⟨-, -, -, hstop⟩ | ⟨tc₀, hroom, hcommit, hend⟩⟩ :=
        prefetchOneInstruction_cases hone
      · rw [if_pos hstop] at h
        cases h
      · obtain ⟨-, -, hnr, hlt, -⟩ := commitTranslation_entries hcommit
        have hsame : tc₀ = tc ∨ blob.isFlushable = true := by
          rcases hroom with ⟨-, h⟩ | ⟨-, h, -⟩
          · exact Or.inl h
          · exact Or.inr h
        split at h
        next => cases h
        next hstop =>
          rcases hend with ⟨-, rfl⟩ | ⟨-, hstop'⟩
          · exact Or.inr ⟨tc₀, tc₁, _, hsame, hlt, hnr, rfl, h⟩
          · exact absurd hstop' hstop

/-- The rounds of the loop are bounded by the entries that are left. -/
theorem prefetchLoop_error {guest : GuestCode jumper} {fuel : Nat} {tc : TranslationCache}
    {blob : PrefetchBlob} {e : Fault} (h : prefetchLoop guest fuel tc blob = .error e)
    (hflush : blob.isFlushable = false)
    (hnr : tc.nrTranslatedInstructions ≤ maxInstructionsToTranslate)
    (hfuel : maxInstructionsToTranslate < tc.nrTranslatedInstructions + fuel) :
    e = .assertion := by
  induction fuel generalizing tc blob with
  | zero => omega
  | succ fuel ih =>
    obtain h | ⟨tc₀, tc₁, blob₁, rfl | hflush', hlt, hnr₁, hflush₁, h⟩ :=
      prefetchLoop_error_cases h
    · exact h
    · exact ih h hflush₁ (by omega) (by omega)
    · simp [hflush] at hflush'

/-- `prefetch_instructions` returns or stops at an assertion: the bound on the
rounds of its loop is never met. -/
theorem prefetchInstructions_error {guest : GuestCode jumper} {pc : Word}
    {tc : TranslationCache} {e : Fault} (h : prefetchInstructions guest pc tc = .error e) :
    e = .assertion := by
  simp only [prefetchInstructions, bind_eq_error] at h
  rcases h with h | ⟨tc', -, h⟩
  · obtain h | ⟨tc₀, tc₁, blob₁, -, hlt, hnr₁, hflush₁, h⟩ := prefetchLoop_error_cases h
    · exact h
    · exact prefetchLoop_error h hflush₁ (by omega) (by omega)
  · split at h <;> cases h

end Hyrule
