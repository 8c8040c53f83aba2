import Hyrule.Cache.Prefetch

/-!
# The limits of prefetching

`prefetch_instructions` with the lookup of the cache as a parameter, and with the
flushes and additions it makes on record.  With `search_translation_item` as the
lookup it is `prefetchInstructions` (`prefetchWith_search`).

The loop of the source has no counter.  Every round but the last takes an entry of
the table, and no round but the first may flush, so the free entries are its
measure.  `prefetch_withinLimits` is the result for a lookup that finds exactly the
entries there are.
-/

namespace Hyrule

open Lib Lib.Result

/-! ## Prefetching with any lookup -/

/-- A lookup of the cache. -/
abbrev Lookup := TranslationCache → Word → Result (Option MappingItem)

/-- A call that prefetching makes on the cache, with the return code of an addition. -/
inductive CacheEvent where
  | flush
  | add (rc : Int)
deriving DecidableEq

variable {jumper : Block}

/-- `COMMIT_TRANSLATION`. -/
def commitWith (find : Lookup) (tc : TranslationCache) (address : Word) (t : Translation jumper) :
    Result (TranslationCache × CacheEvent) := do
  let (rc, tc) ← addTranslationItem jumper tc address t.block
  check (rc = 0)
  match ← find tc address with
  | none => throw .assertion
  | some item =>
      check (item.guestPc = address)
      let paramStart := item.tcOffset.toNat + t.block.size - 4 * t.params.length
      return ({ tc with
        code := memcpy tc.code paramStart (paramByte t.params) (4 * t.params.length) }, .add rc)

/-- What a translator leaves for the next round. -/
def PrefetchBlob.advance (blob : PrefetchBlob) (t : Translation jumper) : PrefetchBlob :=
  if t.fallsThrough then
    { blob with nextInstructionToFetch := blob.nextInstructionToFetch + 4, isFlushable := false }
  else { blob with isToStop := true, isFlushable := false }

/-- `prefetch_one_instruction`. -/
def prefetchOneWith (find : Lookup) (guest : GuestCode jumper) (tc : TranslationCache)
    (blob : PrefetchBlob) : Result (TranslationCache × PrefetchBlob × List CacheEvent) :=
  match guest blob.nextInstructionToFetch with
  | none => throw .assertion
  | some t =>
      if unoccupiedCacheSize jumper tc < t.block.size then
        if blob.isFlushable then do
          let (tc, event) ← commitWith find (flushTranslationCache tc) blob.nextInstructionToFetch t
          return (tc, blob.advance t, [.flush, event])
        else
          return (tc, { blob with isToStop := true }, [])
      else do
        let (tc, event) ← commitWith find tc blob.nextInstructionToFetch t
        return (tc, blob.advance t, [event])

/-- The loop of `prefetch_instructions`. -/
def prefetchLoopWith (find : Lookup) (guest : GuestCode jumper) : Nat → TranslationCache →
    PrefetchBlob → Result (TranslationCache × List CacheEvent)
  | 0, _, _ => throw .divergence
  | fuel + 1, tc, blob => do
      match ← find tc blob.nextInstructionToFetch with
      | some _ => return (tc, [])
      | none =>
          let (tc, blob, events) ← prefetchOneWith find guest tc blob
          if blob.isToStop then return (tc, events)
          else
            let (tc, rest) ← prefetchLoopWith find guest fuel tc blob
            return (tc, events ++ rest)

/-- `prefetch_instructions`, with the calls that it makes. -/
def prefetchWith (find : Lookup) (guest : GuestCode jumper) (pc : Word) (tc : TranslationCache) :
    Result (TranslationCache × List CacheEvent) := do
  let (tc', events) ← prefetchLoopWith find guest (maxInstructionsToTranslate + 2) tc
    ⟨pc, false, true⟩
  if tc.ptr ≠ tc'.ptr then return (appendJumper jumper tc', events) else return (tc', events)

/-! ## The lookup of the source -/

section Search

variable {guest : GuestCode jumper}

theorem commitWith_search (tc : TranslationCache) (address : Word) (t : Translation jumper) :
    Prod.fst <$> commitWith searchTranslationItem tc address t =
      commitTranslation tc address t := by
  simp only [commitWith, commitTranslation, map_bind]
  refine bind_congr ?_
  rintro ⟨rc, tc⟩
  refine bind_congr fun _ => bind_congr fun found => ?_
  cases found with
  | none => rfl
  | some item => simp only [map_bind, map_pure]

/-- A committed instruction, without the record. -/
theorem translateInstruction_eq (tc : TranslationCache) (blob : PrefetchBlob)
    (t : Translation jumper) (events : CacheEvent → List CacheEvent) :
    (do let (tc, event) ← commitWith searchTranslationItem tc blob.nextInstructionToFetch t
        return (tc, blob.advance t, events event)) >>=
      (fun r : TranslationCache × PrefetchBlob × List CacheEvent => return (r.1, r.2.1)) =
    translateInstruction tc { blob with isFlushable := false } t := by
  rw [translateInstruction, ← commitWith_search]
  simp only [bind_map_left, bind_assoc, pure_bind]
  refine bind_congr ?_
  rintro ⟨tc, event⟩
  unfold PrefetchBlob.advance
  split
  next => rfl
  next => rfl

theorem prefetchOneWith_search (tc : TranslationCache) (blob : PrefetchBlob) :
    prefetchOneWith searchTranslationItem guest tc blob >>=
      (fun r : TranslationCache × PrefetchBlob × List CacheEvent => return (r.1, r.2.1)) =
    prefetchOneInstruction guest tc blob := by
  unfold prefetchOneWith prefetchOneInstruction
  cases guest blob.nextInstructionToFetch with
  | none => rfl
  | some t =>
    simp only
    split
    next =>
      split
      next => exact translateInstruction_eq _ blob t fun event => [.flush, event]
      next => rfl
    next => exact translateInstruction_eq tc blob t fun event => [event]

theorem prefetchLoopWith_search (fuel : Nat) (tc : TranslationCache) (blob : PrefetchBlob) :
    Prod.fst <$> prefetchLoopWith searchTranslationItem guest fuel tc blob =
      prefetchLoop guest fuel tc blob := by
  induction fuel generalizing tc blob with
  | zero => rfl
  | succ fuel ih =>
    rw [prefetchLoopWith, prefetchLoop, map_bind]
    refine bind_congr fun found => ?_
    cases found with
    | some item => rfl
    | none =>
      simp only [← prefetchOneWith_search, map_bind, bind_assoc, pure_bind]
      refine bind_congr ?_
      rintro ⟨tc, blob, events⟩
      simp only
      split
      next => rfl
      next => simp only [← ih, map_eq_pure_bind, bind_assoc, pure_bind]

/-- With the lookup of the source it is `prefetch_instructions`. -/
theorem prefetchWith_search (pc : Word) (tc : TranslationCache) :
    Prod.fst <$> prefetchWith searchTranslationItem guest pc tc =
      prefetchInstructions guest pc tc := by
  rw [prefetchWith, prefetchInstructions, ← prefetchLoopWith_search]
  simp only [map_bind, bind_map_left]
  refine bind_congr ?_
  rintro ⟨tc', events⟩
  simp only
  split
  next => rfl
  next => rfl

end Search

/-! ## Exact lookups -/

/-- The cache has an entry for an address. -/
def TranslationCache.Translated (tc : TranslationCache) (q : Word) : Prop :=
  ∃ item ∈ tc.pcMappings, item.guestPc = q

/-- A lookup that finds an entry of the address exactly if there is one. -/
structure ExactLookup where
  find : Lookup
  found : ∀ tc q, tc.Translated q →
    ∃ item, find tc q = .ok (some item) ∧ item ∈ tc.pcMappings ∧ item.guestPc = q
  missing : ∀ tc q, ¬ tc.Translated q → find tc q = .ok none

/-- A lookup that goes through the entries. -/
def ExactLookup.linear : ExactLookup where
  find tc q := .ok (tc.pcMappings.find? fun item => item.guestPc = q)
  found tc q h := by
    obtain ⟨item, hitem, hq⟩ := h
    cases hfind : tc.pcMappings.find? fun item => item.guestPc = q with
    | none =>
      rw [List.find?_eq_none] at hfind
      exact absurd (decide_eq_true hq) (hfind item hitem)
    | some item' =>
      have hq' := List.find?_some hfind
      exact ⟨item', rfl, List.mem_of_find?_eq_some hfind, of_decide_eq_true hq'⟩
  missing tc q h := by
    rw [List.find?_eq_none.mpr]
    intro item hitem hq
    exact h ⟨item, hitem, of_decide_eq_true hq⟩

/-! ## What one round does -/

section Rounds

variable {lookup : ExactLookup} {guest : GuestCode jumper} {tc : TranslationCache}
  {blob : PrefetchBlob} {address : Word} {t : Translation jumper}

/-- A cache behind an addition: there is room for the jumper, and the table is not
overfull. -/
structure TranslationCache.Closable (jumper : Block) (tc : TranslationCache) : Prop where
  room : tc.ptr + jumper.size ≤ translationCacheSize
  entries : tc.nrTranslatedInstructions ≤ maxInstructionsToTranslate

/-- A block that fits is added, for one entry of the table. -/
theorem commitWith_ok (lookup : ExactLookup)
    (hroom : ¬ unoccupiedCacheSize jumper tc < t.block.size) (address : Word) :
    ∃ tc', commitWith lookup.find tc address t = .ok (tc', .add 0) ∧
      tc'.nrTranslatedInstructions = tc.nrTranslatedInstructions + 1 ∧
      tc'.Closable jumper ∧ tc'.Translated address ∧
      ∀ q, tc.Translated q → tc'.Translated q := by
  have hpos := t.block.size_pos
  -- A block has at least a byte, so a full table would have no room.
  have hnr : tc.nrTranslatedInstructions < maxInstructionsToTranslate := by
    by_contra hfull
    rw [unoccupiedCacheSize, if_neg hfull] at hroom
    omega
  have hfits := hroom
  rw [unoccupiedCacheSize, if_pos hnr] at hfits
  obtain ⟨m, hm, hsort⟩ := insertionSort_spec (comparingMappingItem_answers
    (tc.pcMappings ++ [⟨address, BitVec.ofNat 32 tc.ptr⟩]) ⟨address, BitVec.ofNat 32 tc.ptr⟩)
  set item : MappingItem := ⟨address, BitVec.ofNat 32 tc.ptr⟩ with hitem
  set tc₁ : TranslationCache := ⟨tc.pcMappings.insertIdx m item,
    memcpy tc.code tc.ptr t.block.byte t.block.size, tc.ptr + t.block.size⟩ with htc₁
  have hadd : addTranslationItem jumper tc address t.block = .ok (0, tc₁) := by
    rw [addTranslationItem, if_neg hroom, if_neg (Nat.not_le.mpr hnr)]
    simp only [← hitem, hsort, ok_bind, pure_eq_ok, htc₁]
  have hmem : ∀ e, e ∈ tc₁.pcMappings ↔ e = item ∨ e ∈ tc.pcMappings :=
    fun e => List.mem_insertIdx hm
  have hself : tc₁.Translated address := ⟨item, (hmem item).mpr (Or.inl rfl), rfl⟩
  obtain ⟨found, hfind, -, hpc⟩ := lookup.found tc₁ address hself
  have hcommit : commitWith lookup.find tc address t = .ok ({ tc₁ with
      code := memcpy tc₁.code (found.tcOffset.toNat + t.block.size - 4 * t.params.length)
        (paramByte t.params) (4 * t.params.length) }, .add 0) := by
    simp only [commitWith, hadd, hfind, ok_bind, check_true, hpc, pure_eq_ok]
  refine ⟨_, hcommit, List.length_insertIdx_of_le_length hm item, ⟨?_, ?_⟩, hself, ?_⟩
  · show tc.ptr + t.block.size + jumper.size ≤ translationCacheSize
    omega
  · show (tc.pcMappings.insertIdx m item).length ≤ maxInstructionsToTranslate
    rw [List.length_insertIdx_of_le_length hm]
    exact hnr
  · rintro q ⟨e, he, hq⟩
    exact ⟨e, (hmem e).mpr (Or.inr he), hq⟩

theorem advance_isFlushable (blob : PrefetchBlob) (t : Translation jumper) :
    (blob.advance t).isFlushable = false := by
  unfold PrefetchBlob.advance
  split
  next => rfl
  next => rfl

/-- An empty cache has room for every block. -/
theorem unoccupied_flush (tc : TranslationCache) (t : Translation jumper) :
    ¬ unoccupiedCacheSize jumper (flushTranslationCache tc) < t.block.size := by
  have hfits := t.fits
  have hnr : (flushTranslationCache tc).nrTranslatedInstructions < maxInstructionsToTranslate :=
    (by decide : 0 < maxInstructionsToTranslate)
  rw [unoccupiedCacheSize, if_pos hnr]
  show ¬ ((translationCacheSize : Int) - (0 : Nat) - jumper.size < t.block.size)
  omega

/-- The first round translates its instruction, behind a flush if it has to. -/
theorem prefetchOneWith_first (tc : TranslationCache) (lookup : ExactLookup)
    (ht : guest blob.nextInstructionToFetch = some t) (hflush : blob.isFlushable = true) :
    ∃ tc' events, prefetchOneWith lookup.find guest tc blob =
        .ok (tc', blob.advance t, events) ∧
      (events = [.flush, .add 0] ∨ events = [.add 0]) ∧
      tc'.Closable jumper ∧ tc'.Translated blob.nextInstructionToFetch := by
  unfold prefetchOneWith
  rw [ht]
  simp only
  by_cases hfull : unoccupiedCacheSize jumper tc < t.block.size
  · obtain ⟨tc', hcommit, -, hclosable, hself, -⟩ :=
      commitWith_ok lookup (unoccupied_flush tc t) blob.nextInstructionToFetch
    refine ⟨tc', [.flush, .add 0], ?_, Or.inl rfl, hclosable, hself⟩
    rw [if_pos hfull, if_pos hflush, hcommit]
    rfl
  · obtain ⟨tc', hcommit, -, hclosable, hself, -⟩ :=
      commitWith_ok lookup hfull blob.nextInstructionToFetch
    refine ⟨tc', [.add 0], ?_, Or.inr rfl, hclosable, hself⟩
    rw [if_neg hfull, hcommit]
    rfl

/-- A later round translates its instruction for an entry of the table, or stops. -/
theorem prefetchOneWith_later (lookup : ExactLookup)
    (ht : guest blob.nextInstructionToFetch = some t) (hflush : blob.isFlushable = false)
    (htc : tc.Closable jumper) :
    ∃ tc' blob' events, prefetchOneWith lookup.find guest tc blob = .ok (tc', blob', events) ∧
      (∀ event ∈ events, event = .add 0) ∧ blob'.isFlushable = false ∧ tc'.Closable jumper ∧
      (∀ q, tc.Translated q → tc'.Translated q) ∧
      (blob'.isToStop = true ∨
        tc'.nrTranslatedInstructions = tc.nrTranslatedInstructions + 1) := by
  unfold prefetchOneWith
  rw [ht]
  simp only
  by_cases hfull : unoccupiedCacheSize jumper tc < t.block.size
  · refine ⟨tc, { blob with isToStop := true }, [], ?_, by simp, hflush, htc, fun q hq => hq,
      Or.inl rfl⟩
    rw [if_pos hfull, if_neg (by simp [hflush])]
    rfl
  · obtain ⟨tc', hcommit, hnr, hclosable, -, hkeeps⟩ :=
      commitWith_ok lookup hfull blob.nextInstructionToFetch
    refine ⟨tc', blob.advance t, [.add 0], ?_, by simp, advance_isFlushable blob t, hclosable,
      hkeeps, Or.inr hnr⟩
    rw [if_neg hfull, hcommit]
    rfl

/-- The rounds behind the first: each takes an entry, so there are enough. -/
theorem prefetchLoopWith_later (lookup : ExactLookup) (hguest : ∀ pc, guest pc ≠ none)
    (fuel : Nat) (hflush : blob.isFlushable = false) (htc : tc.Closable jumper)
    (hfuel : maxInstructionsToTranslate < tc.nrTranslatedInstructions + fuel) :
    ∃ tc' events, prefetchLoopWith lookup.find guest fuel tc blob = .ok (tc', events) ∧
      (∀ event ∈ events, event = .add 0) ∧ tc'.Closable jumper ∧
      ∀ q, tc.Translated q → tc'.Translated q := by
  induction fuel generalizing tc blob with
  | zero => exact absurd htc.entries (Nat.not_le.mpr hfuel)
  | succ fuel ih =>
    rw [prefetchLoopWith]
    by_cases hfound : tc.Translated blob.nextInstructionToFetch
    · obtain ⟨item, hfind, -⟩ := lookup.found tc _ hfound
      exact ⟨tc, [], by rw [hfind]; rfl, by simp, htc, fun q hq => hq⟩
    · obtain ⟨t, ht⟩ := Option.ne_none_iff_exists'.mp (hguest blob.nextInstructionToFetch)
      obtain ⟨tc₁, blob₁, events, hone, hevents, hflush₁, htc₁, hkeeps, hnext⟩ :=
        prefetchOneWith_later lookup ht hflush htc
      simp only [lookup.missing tc _ hfound, ok_bind, hone]
      by_cases hstop : blob₁.isToStop = true
      · exact ⟨tc₁, events, by rw [if_pos hstop]; rfl, hevents, htc₁, hkeeps⟩
      · have hnr := hnext.resolve_left hstop
        obtain ⟨tc', rest, hloop, hrest, htc', hkeeps'⟩ := ih hflush₁ htc₁ (by omega)
        refine ⟨tc', events ++ rest, by rw [if_neg hstop, hloop]; rfl, ?_, htc',
          fun q hq => hkeeps' q (hkeeps q hq)⟩
        intro event hevent
        rcases List.mem_append.mp hevent with h | h
        · exact hevents event h
        · exact hrest event h

end Rounds

/-! ## The result -/

/-- Prefetching returns within the bound on its rounds, flushes at most once, fails no
addition, leaves the instruction at `hart.pc` translated, and keeps both limits. -/
theorem prefetch_withinLimits (lookup : ExactLookup) (guest : GuestCode jumper)
    (hguest : ∀ pc, guest pc ≠ none) (pc : Word) (tc : TranslationCache)
    (hptr : tc.ptr ≤ translationCacheSize)
    (hnr : tc.nrTranslatedInstructions ≤ maxInstructionsToTranslate) :
    ∃ tc' events, prefetchWith lookup.find guest pc tc = .ok (tc', events) ∧
      events.count .flush ≤ 1 ∧ (∀ rc, .add rc ∈ events → rc = 0) ∧ tc'.Translated pc ∧
      tc'.ptr ≤ translationCacheSize ∧
      tc'.nrTranslatedInstructions ≤ maxInstructionsToTranslate := by
  by_cases hfound : tc.Translated pc
  · obtain ⟨item, hfind, -⟩ := lookup.found tc pc hfound
    have hloop : prefetchLoopWith lookup.find guest (maxInstructionsToTranslate + 2) tc
        ⟨pc, false, true⟩ = .ok (tc, []) := by
      rw [prefetchLoopWith, hfind]
      rfl
    refine ⟨tc, [], ?_, by simp, by simp, hfound, hptr, hnr⟩
    rw [prefetchWith, hloop, ok_bind]
    simp
  · obtain ⟨t, ht⟩ := Option.ne_none_iff_exists'.mp (hguest pc)
    have hfirst : guest (PrefetchBlob.nextInstructionToFetch ⟨pc, false, true⟩) = some t := ht
    obtain ⟨tc₁, events, hone, hevents, htc₁, hself⟩ :=
      prefetchOneWith_first tc lookup hfirst rfl
    -- The loop ends behind the first round, or goes on without a flush.
    obtain ⟨tc₂, rest, hloop, hrest, htc₂, hkeeps⟩ : ∃ tc₂ rest,
        prefetchLoopWith lookup.find guest (maxInstructionsToTranslate + 2) tc ⟨pc, false, true⟩ =
          .ok (tc₂, events ++ rest) ∧ (∀ event ∈ rest, event = .add 0) ∧ tc₂.Closable jumper ∧
        tc₂.Translated pc := by
      rw [prefetchLoopWith]
      simp only [lookup.missing tc pc hfound, ok_bind, hone]
      split
      next => exact ⟨tc₁, [], by rw [List.append_nil]; rfl, by simp, htc₁, hself⟩
      next =>
        obtain ⟨tc₂, rest, hloop, hrest, htc₂, hkeeps⟩ := prefetchLoopWith_later lookup hguest
          (maxInstructionsToTranslate + 1) (advance_isFlushable _ t) htc₁ (by omega)
        exact ⟨tc₂, rest, by rw [hloop]; rfl, hrest, htc₂, hkeeps pc hself⟩
    have hadds : ∀ event ∈ rest, event ≠ .flush := by
      intro event hevent
      rw [hrest event hevent]
      simp
    have hcount : (events ++ rest).count .flush ≤ 1 := by
      rw [List.count_append, List.count_eq_zero.mpr fun h => hadds _ h rfl]
      rcases hevents with rfl | rfl
      · decide
      · decide
    have hcodes : ∀ rc, .add rc ∈ events ++ rest → rc = 0 := by
      intro rc hrc
      rcases List.mem_append.mp hrc with h | h
      · rcases hevents with rfl | rfl <;> simpa using h
      · exact CacheEvent.add.inj (hrest _ h)
    by_cases hsame : tc.ptr ≠ tc₂.ptr
    · refine ⟨appendJumper jumper tc₂, events ++ rest, ?_, hcount, hcodes, hkeeps, htc₂.room,
        htc₂.entries⟩
      rw [prefetchWith, hloop, ok_bind]
      simp only [if_pos hsame, pure_eq_ok]
    · refine ⟨tc₂, events ++ rest, ?_, hcount, hcodes, hkeeps,
        Nat.le_of_add_right_le htc₂.room, htc₂.entries⟩
      rw [prefetchWith, hloop, ok_bind]
      simp only [if_neg hsame, pure_eq_ok]

/-- Straight-line code everywhere, entered at the last address. -/
theorem prefetch_withinLimits_straightLine :
    ∃ tc' events, prefetchWith ExactLookup.linear.find
        (fun _ => some (longNop 0 (by decide)) : GuestCode vmmJumper) 0xfffffffc .initial =
          .ok (tc', events) ∧
      events.count .flush ≤ 1 ∧ (∀ rc, .add rc ∈ events → rc = 0) ∧ tc'.Translated 0xfffffffc ∧
      tc'.ptr ≤ translationCacheSize ∧
      tc'.nrTranslatedInstructions ≤ maxInstructionsToTranslate :=
  prefetch_withinLimits .linear _ (fun _ => Option.some_ne_none _) _ _ (Nat.zero_le _)
    (Nat.zero_le _)

end Hyrule
