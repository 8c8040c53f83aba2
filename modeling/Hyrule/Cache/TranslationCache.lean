import Hyrule.Lib.Transition
import Hyrule.Util.Sort
import Hyrule.Util.Word
import Mathlib.Data.Nat.Basic

/-!
# The translation cache

The part of `struct hart` that holds translated code, with the functions of
`hart.c` on it.  `pc_mappings` is the list of its `nr_translated_instructions`
entries, so the number is the length of the list.  The code buffer is a function
from offsets to bytes.  The bytes of the VMM jumper are a parameter: they depend
on where the linker puts `vmm_entry_point`.

The entries are kept sorted by `comparing_mapping_item`, the difference of two
guest addresses cast to `int`.  The cast makes the comparator an order only on
addresses that lie in one window of `2^31`.  Three addresses spread around the
whole address space can each be below the next.

A lookup never returns a wrong entry, whatever the addresses
(`searchTranslationItem_sound`).  It returns every entry as long as the
addresses added since the last flush lie in one window
(`searchTranslationItem_of_oneWindow`).  Six addresses that do not are enough to
lose one of them (`searchTranslationItem_loses_entry`).
-/

namespace Hyrule

open Lib Lib.Result

/-! ## The state -/

/-- `TRANSLATION_CACHE_SIZE`. -/
def translationCacheSize : Nat := 1024 * 64

/-- `MAX_INSTRUCTIONS_TOTRANSLATE`. -/
def maxInstructionsToTranslate : Nat := 512

/-- `struct program_counter_mapping_item`. -/
structure MappingItem where
  guestPc : Word
  tcOffset : Word
deriving DecidableEq, Repr

/-- The translation cache of a hart. -/
structure TranslationCache where
  /-- `pc_mappings`, up to `nr_translated_instructions`. -/
  pcMappings : List MappingItem
  /-- The bytes at `translation_cache`. -/
  code : Nat → Byte
  /-- `translation_cache_ptr`. -/
  ptr : Nat

/-- A block of host code between two labels: its size, and its byte at every
index below the size.  No block is empty. -/
structure Block where
  size : Nat
  byte : Nat → Byte
  size_pos : 0 < size

namespace TranslationCache

/-- `nr_translated_instructions`. -/
def nrTranslatedInstructions (tc : TranslationCache) : Nat := tc.pcMappings.length

/-- The cache `hart_init` leaves: fresh anonymous memory and no entries. -/
def initial : TranslationCache where
  pcMappings := []
  code := fun _ => 0
  ptr := 0

end TranslationCache

/-- `unoccupied_cache_size`.  The room for the jumper is kept free. -/
def unoccupiedCacheSize (jumper : Block) (tc : TranslationCache) : Int :=
  if tc.nrTranslatedInstructions < maxInstructionsToTranslate then
    translationCacheSize - tc.ptr - jumper.size
  else 0

/-- `flush_translation_cache`. -/
def flushTranslationCache (tc : TranslationCache) : TranslationCache :=
  { tc with pcMappings := [], ptr := 0 }

/-- `comparing_mapping_item`. -/
def comparingMappingItem (a b : MappingItem) : Result Int :=
  return (a.guestPc - b.guestPc).toInt

/-- `add_translation_item`: the return code, and the cache after the call. -/
def addTranslationItem (jumper : Block) (tc : TranslationCache) (guestAddress : Word)
    (block : Block) : Result (Int × TranslationCache) :=
  if unoccupiedCacheSize jumper tc < block.size then return (-1, tc)
  else if maxInstructionsToTranslate ≤ tc.nrTranslatedInstructions then return (-2, tc)
  else do
    let item : MappingItem := ⟨guestAddress, BitVec.ofNat 32 tc.ptr⟩
    let pcMappings ← insertionSort comparingMappingItem (tc.pcMappings ++ [item])
    return (0, ⟨pcMappings, memcpy tc.code tc.ptr block.byte block.size, tc.ptr + block.size⟩)

/-- `search_translation_item`: the entry found, or `none` for a null pointer. -/
def searchTranslationItem (tc : TranslationCache) (guestAddress : Word) :
    Result (Option MappingItem) := do
  -- The key's offset is left at zero and never compared.
  match ← search comparingMappingItem tc.pcMappings ⟨guestAddress, 0⟩ with
  | none => return none
  | some i => return some (← elem tc.pcMappings i)

/-! ## What one call does -/

theorem comparingMappingItem_answers (l : List MappingItem) (x : MappingItem) :
    Answers comparingMappingItem l x :=
  fun _ _ => ⟨⟨_, rfl⟩, ⟨_, rfl⟩⟩

/-- A successful call found room, inserted one entry for the current pointer and
copied the block there.  The comparator plays no part in this. -/
theorem addTranslationItem_ok {jumper : Block} {tc tc' : TranslationCache}
    {guestAddress : Word} {block : Block}
    (h : addTranslationItem jumper tc guestAddress block = .ok (0, tc')) :
    (block.size : Int) ≤ unoccupiedCacheSize jumper tc ∧
    tc.nrTranslatedInstructions < maxInstructionsToTranslate ∧
    ∃ m, m ≤ tc.pcMappings.length ∧
      insertionSort comparingMappingItem
        (tc.pcMappings ++ [⟨guestAddress, BitVec.ofNat 32 tc.ptr⟩]) =
          .ok (tc.pcMappings.insertIdx m ⟨guestAddress, BitVec.ofNat 32 tc.ptr⟩) ∧
      tc' = ⟨tc.pcMappings.insertIdx m ⟨guestAddress, BitVec.ofNat 32 tc.ptr⟩,
        memcpy tc.code tc.ptr block.byte block.size, tc.ptr + block.size⟩ := by
  unfold addTranslationItem at h
  split at h
  next => simp at h
  next hroom =>
    split at h
    next => simp at h
    next hnr =>
      obtain ⟨m, hm, hsort⟩ := insertionSort_spec (comparingMappingItem_answers
        (tc.pcMappings ++ [⟨guestAddress, BitVec.ofNat 32 tc.ptr⟩])
        ⟨guestAddress, BitVec.ofNat 32 tc.ptr⟩)
      simp only [hsort, ok_bind, pure_eq_ok, Except.ok.injEq, Prod.mk.injEq, true_and] at h
      exact ⟨by omega, by omega, m, hm, hsort, h.symm⟩

/-- A lookup returns, and what it returns is an entry for the address asked. -/
theorem searchTranslationItem_sound {tc : TranslationCache} {q : Word} {item : MappingItem}
    (h : searchTranslationItem tc q = .ok (some item)) :
    item ∈ tc.pcMappings ∧ item.guestPc = q := by
  simp only [searchTranslationItem, bind_eq_ok] at h
  obtain ⟨r, hr, h⟩ := h
  cases r with
  | none => simp at h
  | some i =>
    obtain ⟨e, he, hcomp⟩ := search_sound hr
    simp only [bind_eq_ok, elem_eq_ok, pure_eq_ok, Except.ok.injEq, Option.some.injEq] at h
    obtain ⟨e', he', rfl⟩ := h
    obtain rfl : e = e' := by simpa [he] using he'
    refine ⟨List.mem_of_getElem? he, ?_⟩
    simp only [comparingMappingItem, pure_eq_ok, Except.ok.injEq] at hcomp
    have hzero : q - e.guestPc = 0 := BitVec.eq_of_toInt_eq (by simpa using hcomp)
    grind

theorem searchTranslationItem_returns (tc : TranslationCache) (q : Word) :
    ∃ r, searchTranslationItem tc q = .ok r := by
  have hanswers : ∀ e ∈ tc.pcMappings, ∃ c, comparingMappingItem ⟨q, 0⟩ e = .ok c :=
    fun _ _ => ⟨_, rfl⟩
  obtain ⟨r, hr⟩ := search_returns _ hanswers
  cases r with
  | none => exact ⟨none, by simp only [searchTranslationItem, hr, ok_bind, pure_eq_ok]⟩
  | some i =>
    obtain ⟨e, he, -⟩ := search_sound hr
    refine ⟨some e, ?_⟩
    simp only [searchTranslationItem, hr, ok_bind, elem_eq_ok.mpr he, pure_eq_ok]

/-! ## Runs of flushes and additions -/

/-- A call that changes the cache. -/
inductive CacheCall where
  | flush
  | add (guestAddress : Word) (block : Block)

/-- A cache with the offsets recorded since the last flush, per guest address. -/
structure CacheRun where
  cache : TranslationCache
  recorded : Word → Option Word

/-- The runs of `flush_translation_cache` and successful `add_translation_item`
calls on one hart.  An address is added at most once between two flushes. -/
def cacheRuns (jumper : Block) : System CacheRun CacheCall where
  init s := s = ⟨.initial, fun _ => none⟩
  step s call s' :=
    match call with
    | .flush => s' = ⟨flushTranslationCache s.cache, fun _ => none⟩
    | .add q block => s.recorded q = none ∧
        ∃ tc', addTranslationItem jumper s.cache q block = .ok (0, tc') ∧
          s' = ⟨tc', Function.update s.recorded q (some (BitVec.ofNat 32 s.cache.ptr))⟩

/-- Every lookup returns the recorded entry, or a null pointer if there is none. -/
def CacheRun.LookupExact (s : CacheRun) : Prop :=
  ∀ q, searchTranslationItem s.cache q = .ok ((s.recorded q).map fun offset => ⟨q, offset⟩)

/-- The addresses added since the last flush lie in one window, together with
the one the call adds. -/
def CacheRun.OneWindow (s : CacheRun) (call : CacheCall) : Prop :=
  ∃ base, (∀ q, s.recorded q ≠ none → InWindow base q) ∧
    ∀ q block, call = .add q block → InWindow base q

/-- The entries are the recorded ones, in the order of the comparator, and lie in
one window. -/
structure CacheRun.Ordered (s : CacheRun) : Prop where
  recorded_of_mem : ∀ item ∈ s.cache.pcMappings, s.recorded item.guestPc = some item.tcOffset
  mem_of_recorded : ∀ q offset, s.recorded q = some offset →
    (⟨q, offset⟩ : MappingItem) ∈ s.cache.pcMappings
  sorted : s.cache.pcMappings.Pairwise fun a b => (a.guestPc - b.guestPc).toInt ≤ 0
  window : ∃ base, ∀ q, s.recorded q ≠ none → InWindow base q

/-- The distance of an entry's address from the base of a window. -/
def distance (base : Word) (item : MappingItem) : Nat := (item.guestPc - base).toNat

/-- In a window the comparator follows the distance from its base. -/
theorem comparingMappingItem_follows {base : Word} {l : List MappingItem}
    (h : ∀ item ∈ l, InWindow base item.guestPc) :
    Follows comparingMappingItem (distance base) l := by
  intro a ha b hb
  refine ⟨_, rfl, ?_⟩
  rw [toInt_sub_of_inWindow (h a ha) (h b hb)]
  unfold distance
  omega

theorem CacheRun.Ordered.ascending {s : CacheRun} (h : s.Ordered) {base : Word}
    (hw : ∀ q, s.recorded q ≠ none → InWindow base q) :
    Ascending (distance base) s.cache.pcMappings := by
  refine h.sorted.imp_of_mem fun {a b} ha hb hle => ?_
  have hwa : InWindow base a.guestPc := hw _ (by simp [h.recorded_of_mem a ha])
  have hwb : InWindow base b.guestPc := hw _ (by simp [h.recorded_of_mem b hb])
  rw [toInt_sub_of_inWindow hwa hwb] at hle
  unfold distance
  omega

theorem CacheRun.ordered_initial : (⟨.initial, fun _ => none⟩ : CacheRun).Ordered where
  recorded_of_mem _ hmem := by simp [TranslationCache.initial] at hmem
  mem_of_recorded _ _ h := by simp at h
  sorted := List.Pairwise.nil
  window := ⟨0, fun q h => by simp at h⟩

theorem CacheRun.ordered_flush (s : CacheRun) :
    (⟨flushTranslationCache s.cache, fun _ => none⟩ : CacheRun).Ordered where
  recorded_of_mem _ hmem := by simp [flushTranslationCache] at hmem
  mem_of_recorded _ _ h := by simp at h
  sorted := List.Pairwise.nil
  window := ⟨0, fun q h => by simp at h⟩

/-- Adding an address that fits in one window with the others keeps the entries
ordered. -/
theorem CacheRun.Ordered.add {jumper : Block} {s : CacheRun} {q : Word} {block : Block}
    {tc' : TranslationCache} (h : s.Ordered) (hfresh : s.recorded q = none)
    (hadd : addTranslationItem jumper s.cache q block = .ok (0, tc'))
    (hw : s.OneWindow (.add q block)) :
    (⟨tc', Function.update s.recorded q (some (BitVec.ofNat 32 s.cache.ptr))⟩ :
      CacheRun).Ordered := by
  obtain ⟨base, hwOld, hwNew⟩ := hw
  have hwq : InWindow base q := hwNew q block rfl
  obtain ⟨-, -, m, hm, hsort, rfl⟩ := addTranslationItem_ok hadd
  set item : MappingItem := ⟨q, BitVec.ofNat 32 s.cache.ptr⟩ with hitem
  have hne : ∀ e ∈ s.cache.pcMappings, e.guestPc ≠ q := by
    intro e he heq
    have := h.recorded_of_mem e he
    rw [heq, hfresh] at this
    cases this
  have hwAll : ∀ e ∈ s.cache.pcMappings ++ [item], InWindow base e.guestPc := by
    intro e he
    rcases List.mem_append.mp he with he | he
    · exact hwOld _ (by simp [h.recorded_of_mem e he])
    · obtain rfl := List.mem_singleton.mp he
      exact hwq
  obtain ⟨m', hm', hsort', hasc⟩ :=
    insertionSort_sorted (comparingMappingItem_follows hwAll) (h.ascending hwOld)
  rw [hsort, Except.ok.injEq] at hsort'
  refine ⟨?_, ?_, ?_, base, ?_⟩
  · intro e he
    rcases (List.mem_insertIdx hm).mp he with he | he
    · subst he
      simp [item]
    · simp [Function.update_of_ne (hne e he), h.recorded_of_mem e he]
  · intro p offset hp
    rw [List.mem_insertIdx hm]
    by_cases hpq : p = q
    · subst hpq
      left
      simpa [item, eq_comm] using hp
    · simp only [Function.update_of_ne hpq] at hp
      exact Or.inr (h.mem_of_recorded p offset hp)
  · show (s.cache.pcMappings.insertIdx m item).Pairwise _
    rw [hsort']
    refine List.Pairwise.imp_of_mem (fun {a b} ha hb hle => ?_) hasc
    have hin : ∀ e ∈ s.cache.pcMappings.insertIdx m' item, InWindow base e.guestPc := by
      intro e he
      rcases (List.mem_insertIdx hm').mp he with he | he
      · exact hwAll e (by simp [he])
      · exact hwAll e (by simp [he])
    rw [toInt_sub_of_inWindow (hin a ha) (hin b hb)]
    unfold distance at hle
    omega
  · intro p hp
    by_cases hpq : p = q
    · exact hpq ▸ hwq
    · simp only [Function.update_of_ne hpq] at hp
      exact hwOld p hp

/-- Ordered entries are found. -/
theorem CacheRun.Ordered.lookupExact {s : CacheRun} (h : s.Ordered) : s.LookupExact := by
  intro q
  obtain ⟨base, hw⟩ := h.window
  obtain ⟨r, hr⟩ := searchTranslationItem_returns s.cache q
  rw [hr, Except.ok.injEq]
  cases r with
  | some item =>
    obtain ⟨hmem, rfl⟩ := searchTranslationItem_sound hr
    rw [h.recorded_of_mem item hmem]
    rfl
  | none =>
    cases hq : s.recorded q with
    | none => rfl
    | some offset =>
      -- The address is recorded, so the comparator follows the distance on it too.
      exfalso
      have hwAll : ∀ e ∈ (⟨q, 0⟩ : MappingItem) :: s.cache.pcMappings,
          InWindow base e.guestPc := by
        intro e he
        rcases List.mem_cons.mp he with rfl | he
        · exact hw q (by simp [hq])
        · exact hw _ (by simp [h.recorded_of_mem e he])
      obtain ⟨c, hdesc, hzero⟩ :=
        (comparingMappingItem_follows hwAll).descends (h.ascending hw)
      obtain ⟨r, hsearch, -, hnone⟩ := search_spec hdesc
      obtain ⟨i, hi, hget⟩ := List.getElem_of_mem (h.mem_of_recorded q offset hq)
      cases r with
      | none =>
        refine hnone rfl i hi ((hzero i hi).mpr ?_)
        rw [hget]
        rfl
      | some j =>
        simp only [searchTranslationItem, hsearch, ok_bind, bind_eq_ok, pure_eq_ok] at hr
        obtain ⟨_, _, hr⟩ := hr
        cases hr

/-- In every run whose additions keep the addresses since the last flush in one
window, every lookup is exact. -/
theorem searchTranslationItem_of_oneWindow (jumper : Block) {s : CacheRun}
    (h : ((cacheRuns jumper).restrict CacheRun.OneWindow).Reachable s) : s.LookupExact := by
  suffices hord : s.Ordered from hord.lookupExact
  refine h.invariant ?_ ?_
  · rintro s rfl
    exact CacheRun.ordered_initial
  · rintro s call s' hs ⟨hw, hstep⟩
    cases call with
    | flush =>
      obtain rfl := hstep
      exact s.ordered_flush
    | add q block =>
      obtain ⟨hfresh, tc', hadd, rfl⟩ := hstep
      exact hs.add hfresh hadd hw

/-- The machine code of the jumper, with `vmm_entry_point` at `0x404040`. -/
def vmmJumper : Block where
  size := 9
  byte i := [0x48, 0xc7, 0xc0, 0x40, 0x40, 0x40, 0x00, 0xff, 0xe0].getD i 0
  size_pos := by decide

/-- A block of one host instruction that does nothing. -/
def nop : Block where
  size := 1
  byte _ := 0x90
  size_pos := by decide

/-- The state after a call, if it is allowed and succeeds. -/
def CacheRun.next (jumper : Block) (s : CacheRun) : CacheCall → Option CacheRun
  | .flush => some ⟨flushTranslationCache s.cache, fun _ => none⟩
  | .add q block =>
      match s.recorded q, addTranslationItem jumper s.cache q block with
      | none, .ok (0, tc') =>
          some ⟨tc', Function.update s.recorded q (some (BitVec.ofNat 32 s.cache.ptr))⟩
      | _, _ => none

theorem CacheRun.next_step {jumper : Block} {s s' : CacheRun} {call : CacheCall}
    (h : s.next jumper call = some s') : (cacheRuns jumper).step s call s' := by
  cases call with
  | flush => exact (Option.some.inj h).symm
  | add q block =>
    simp only [CacheRun.next] at h
    split at h
    next tc' hfresh hadd => exact ⟨hfresh, tc', hadd, (Option.some.inj h).symm⟩
    next => cases h

/-- The additions of blocks. -/
def addCalls (blocks : List (Word × Block)) : List CacheCall :=
  blocks.map fun x => .add x.1 x.2

/-- Additions in a window keep the entries in it. -/
theorem CacheRun.reachable_adds {jumper : Block} (base : Word) {s s' : CacheRun}
    {blocks : List (Word × Block)} (hblocks : ∀ x ∈ blocks, InWindow base x.1)
    (h : ((cacheRuns jumper).restrict CacheRun.OneWindow).Reachable s)
    (hw : ∀ q, s.recorded q ≠ none → InWindow base q)
    (hrun : (addCalls blocks).foldlM (CacheRun.next jumper) s = some s') :
    ((cacheRuns jumper).restrict CacheRun.OneWindow).Reachable s' ∧
      ∀ q, s'.recorded q ≠ none → InWindow base q := by
  induction blocks generalizing s with
  | nil => exact Option.some.inj hrun ▸ ⟨h, hw⟩
  | cons x blocks ih =>
    obtain ⟨hx, hrest⟩ := List.forall_mem_cons.mp hblocks
    rw [addCalls, List.map_cons, List.foldlM_cons, Option.bind_eq_bind,
      Option.bind_eq_some_iff] at hrun
    obtain ⟨s₁, hs₁, hrun⟩ := hrun
    have hstep := CacheRun.next_step hs₁
    have hwindow : s.OneWindow (.add x.1 x.2) := by
      refine ⟨base, hw, fun q block h => ?_⟩
      cases h
      exact hx
    refine ih hrest (h.step ⟨hwindow, hstep⟩) (fun q hq => ?_) hrun
    obtain ⟨-, tc', -, rfl⟩ := hstep
    rcases eq_or_ne q x.1 with rfl | hne
    · exact hx
    · simp only [Function.update_of_ne hne] at hq
      exact hw q hq

/-- Behind a flush, four instructions on both sides of the address 0 are added out of order,
and all of them are found. -/
theorem searchTranslationItem_of_oneWindow_unordered :
    ∃ s : CacheRun, ((cacheRuns vmmJumper).restrict CacheRun.OneWindow).Reachable s ∧
      searchTranslationItem s.cache 0x10008 = .ok (some ⟨0x10008, 0⟩) ∧
      searchTranslationItem s.cache 0xffff0000 = .ok (some ⟨0xffff0000, 1⟩) ∧
      searchTranslationItem s.cache 0x10000 = .ok (some ⟨0x10000, 2⟩) ∧
      searchTranslationItem s.cache 0x10004 = .ok (some ⟨0x10004, 3⟩) ∧
      searchTranslationItem s.cache 0x90000000 = .ok none := by
  have hrun : (do
      let s₁ ← (addCalls [(0x90000000, nop)]).foldlM (CacheRun.next vmmJumper)
        ⟨.initial, fun _ => none⟩
      let s₂ ← s₁.next vmmJumper .flush
      let s₃ ← (addCalls [(0x10008, nop), (0xffff0000, nop), (0x10000, nop),
        (0x10004, nop)]).foldlM (CacheRun.next vmmJumper) s₂
      return decide (s₃.recorded 0x10008 = some 0 ∧ s₃.recorded 0xffff0000 = some 1 ∧
        s₃.recorded 0x10000 = some 2 ∧ s₃.recorded 0x10004 = some 3 ∧
        s₃.recorded 0x90000000 = none)) = some true := by
    decide +kernel
  simp only [Option.bind_eq_bind, Option.bind_eq_some_iff, Option.pure_def, Option.some.injEq,
    decide_eq_true_eq] at hrun
  obtain ⟨s₁, h₁, s₂, h₂, s₃, h₃, hrecorded⟩ := hrun
  obtain ⟨hfirst, hold⟩ := CacheRun.reachable_adds 0x90000000 (by decide) (.init rfl)
    (fun q h => absurd rfl h) h₁
  have hflush : s₁.OneWindow .flush := ⟨0x90000000, hold, fun q block h => by cases h⟩
  obtain rfl := Option.some.inj h₂
  obtain ⟨hreach, -⟩ := CacheRun.reachable_adds 0xffff0000 (by decide)
    (hfirst.step ⟨hflush, rfl⟩) (fun q h => absurd rfl h) h₃
  have hexact := searchTranslationItem_of_oneWindow vmmJumper hreach
  obtain ⟨hr₁, hr₂, hr₃, hr₄, hr₅⟩ := hrecorded
  refine ⟨s₃, hreach, ?_, ?_, ?_, ?_, ?_⟩
  · rw [hexact, hr₁]
    rfl
  · rw [hexact, hr₂]
    rfl
  · rw [hexact, hr₃]
    rfl
  · rw [hexact, hr₄]
    rfl
  · rw [hexact, hr₅]
    rfl

/-- Code at `0x10000`, `0x50000000` and `0xa0000000` is spread over more than a
window.  Translating six instructions there loses the one at `0xa0000004`. -/
theorem searchTranslationItem_loses_entry :
    ¬ ∀ s, (cacheRuns vmmJumper).Reachable s → s.LookupExact := by
  intro h
  have hrun : (([.add 0x10000 nop, .add 0x10004 nop, .add 0x50000000 nop,
      .add 0xa0000000 nop, .add 0xa0000004 nop, .add 0x10008 nop] : List CacheCall).foldlM
        (CacheRun.next vmmJumper) ⟨.initial, fun _ => none⟩).map
      (fun s => (searchTranslationItem s.cache 0xa0000004, s.recorded 0xa0000004)) =
        some (.ok none, some 4) := by
    decide +kernel
  obtain ⟨s, hs, hpair⟩ := Option.map_eq_some_iff.mp hrun
  obtain ⟨hlookup, hrecorded⟩ := Prod.mk.inj hpair
  have hreach : (cacheRuns vmmJumper).Reachable s :=
    System.Reachable.foldlM (fun _ _ _ h => CacheRun.next_step h) (.init rfl) hs
  have := h s hreach 0xa0000004
  rw [hlookup, hrecorded] at this
  cases this

end Hyrule
