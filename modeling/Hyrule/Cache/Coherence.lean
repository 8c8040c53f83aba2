import Hyrule.Cpu.Legality

/-!
# Coherence of the translation cache

A hart translates a word once and runs the block until the cache is flushed.  The
guest may meanwhile write other code over the word, as a loader or a just-in-time
compiler does, and tells the hart so by `fence.i`.

`BlockAt` says that the bytes of a block stand in the cache: the template, with
the parameters of the translation over its end.  `Keeps` is the invariant: every
live entry has its block in the cache, made from a translation with a property
`Q`, and the blocks are laid out as in `Layout`.  It is stated for the code `made`
that the live entries were translated from, which need not be the code that the
guest has now.

`Jit` is one hart with the code of its guest.  The code changes at any time.  Along
a run the words that an address held when the hart translated are recorded, up to
the last `fence.i`.  `cache_coherent` says that every block comes from such a word,
and what follows where the code has not changed since the last `fence.i`: the
cache runs the code that the guest has now.
-/

namespace Hyrule

open Lib Lib.Result

variable {jumper : Block}

/-! ## Blocks in the cache -/

/-- The bytes of a committed translation. -/
def Translation.byte (t : Translation jumper) (i : Nat) : Byte :=
  memcpy t.block.byte (t.block.size - 4 * t.params.length) (paramByte t.params)
    (4 * t.params.length) i

/-- The block of a translation stands at an offset. -/
def BlockAt (code : Nat → Byte) (offset : Nat) (t : Translation jumper) : Prop :=
  ∀ i, i < t.block.size → code (offset + i) = t.byte i

theorem BlockAt.congr {code code' : Nat → Byte} {offset : Nat} {t : Translation jumper}
    (h : BlockAt code offset t)
    (hsame : ∀ i, offset ≤ i → i < offset + t.block.size → code' i = code i) :
    BlockAt code' offset t := by
  intro i hi
  rw [hsame (offset + i) (Nat.le_add_right ..) (Nat.add_lt_add_left hi offset)]
  exact h i hi

/-- A block that is copied and then patched with its parameters stands there. -/
theorem blockAt_patched (code : Nat → Byte) (offset : Nat) (t : Translation jumper) :
    BlockAt (memcpy (memcpy code offset t.block.byte t.block.size)
      (offset + t.block.size - 4 * t.params.length) (paramByte t.params)
      (4 * t.params.length)) offset t := by
  intro i hi
  have hfit := t.params_fit
  have hstart : offset + t.block.size - 4 * t.params.length =
      offset + (t.block.size - 4 * t.params.length) := by omega
  rw [hstart, Translation.byte]
  rcases Nat.lt_or_ge i (t.block.size - 4 * t.params.length) with hbefore | hbehind
  · rw [memcpy_of_lt (by omega), memcpy_of_lt hbefore, memcpy_add hi]
  · obtain ⟨k, rfl⟩ := Nat.exists_eq_add_of_le hbehind
    rw [← Nat.add_assoc, memcpy_add (by omega), memcpy_add (by omega)]

/-! ## The invariant -/

/-- The layout depends on the code of the live entries only. -/
theorem GuestCode.Layout.congr {made made' : GuestCode jumper} {tc : TranslationCache}
    {next : Option Word} (h : made.Layout tc next)
    (hsame : ∀ item ∈ tc.pcMappings, made' item.guestPc = made item.guestPc) :
    made'.Layout tc next := by
  have hend : ∀ item ∈ tc.pcMappings, made'.blockEnd item = made.blockEnd item := by
    intro item hitem
    rw [GuestCode.blockEnd, GuestCode.size, hsame item hitem]
    rfl
  constructor
  · exact h.bound
  · intro item hitem
    rw [hsame item hitem]
    exact h.translated item hitem
  · intro item hitem
    rw [hend item hitem]
    exact h.below item hitem
  · refine h.apart.imp_of_mem fun {a b} ha hb hab => ?_
    rwa [hend a ha, hend b hb]
  · intro item hitem hfalls
    have hfalls' : made.Falls item := by
      obtain ⟨t, ht, hfall⟩ := hfalls
      exact ⟨t, (hsame item hitem).symm.trans ht, hfall⟩
    rcases h.followed item hitem hfalls' with ⟨e, he, hpc, hstart⟩ | ⟨hjump, hbelow, hclear⟩ | hopen
    · exact Or.inl ⟨e, he, hpc, hstart.trans (hend item hitem).symm⟩
    · refine Or.inr (Or.inl ?_)
      rw [hend item hitem]
      refine ⟨hjump, hbelow, fun e he => ?_⟩
      rw [hend e he]
      exact hclear e he
    · rw [← hend item hitem] at hopen
      exact Or.inr (Or.inr hopen)

/-- The cache keeps the blocks of the code `made`: they are laid out, their bytes
stand in the cache, each comes from a translation with the property `Q`, and the
lookup finds the entries. -/
structure GuestCode.Keeps (made : GuestCode jumper) (base : Word)
    (Q : Word → Translation jumper → Prop) (tc : TranslationCache) (next : Option Word) :
    Prop where
  layout : made.Layout tc next
  content : ∀ item ∈ tc.pcMappings, ∃ t, made item.guestPc = some t ∧ Q item.guestPc t ∧
    BlockAt tc.code item.tcOffset.toNat t
  ordered : ∃ recorded, (⟨tc, recorded⟩ : CacheRun).Ordered ∧
    ∀ q, recorded q ≠ none → InWindow base q

namespace GuestCode.Keeps

variable {made : GuestCode jumper} {base : Word} {Q : Word → Translation jumper → Prop}
  {tc tc' : TranslationCache} {next : Option Word}

theorem mono (h : made.Keeps base Q tc next) {Q' : Word → Translation jumper → Prop}
    (hQ : ∀ p t, Q p t → Q' p t) : made.Keeps base Q' tc next where
  layout := h.layout
  content item hitem := by
    obtain ⟨t, hmade, hq, hblock⟩ := h.content item hitem
    exact ⟨t, hmade, hQ _ _ hq, hblock⟩
  ordered := h.ordered

/-- A flushed cache keeps nothing. -/
theorem flush (made : GuestCode jumper) (base : Word) (Q : Word → Translation jumper → Prop)
    (tc : TranslationCache) (next : Option Word) :
    made.Keeps base Q (flushTranslationCache tc) next where
  layout := made.layout_flush tc next
  content item hitem := by simp [flushTranslationCache] at hitem
  ordered := ⟨_, (⟨tc, fun _ => none⟩ : CacheRun).ordered_flush, fun _ h => absurd rfl h⟩

/-- An address that the lookup does not find has no entry. -/
theorem not_live (h : made.Keeps base Q tc next) {q : Word}
    (hsearch : searchTranslationItem tc q = .ok none) :
    ∀ item ∈ tc.pcMappings, item.guestPc ≠ q := by
  rintro item hitem rfl
  obtain ⟨recorded, hordered, -⟩ := h.ordered
  have hfound := hordered.lookupExact item.guestPc
  rw [hordered.recorded_of_mem item hitem, hsearch] at hfound
  cases hfound

/-- A committed translation is kept, and so is what was kept before. -/
theorem commit (h : made.Keeps base Q tc next) {address : Word} {t : Translation jumper}
    (hnext : next = some address) (hsearch : searchTranslationItem tc address = .ok none)
    (hQ : Q address t) (hwindow : InWindow base address)
    (hcommit : commitTranslation tc address t = .ok tc') :
    GuestCode.Keeps (Function.update made address (some t)) base Q tc'
      (if t.fallsThrough then some (address + 4) else none) := by
  subst hnext
  have hfresh := h.not_live hsearch
  have hlayout : GuestCode.Layout (Function.update made address (some t)) tc (some address) :=
    h.layout.congr fun item hitem => Function.update_of_ne (hfresh item hitem) ..
  have hmade : Function.update made address (some t) address = some t := Function.update_self ..
  have hlayout' := hlayout.commit hmade hcommit
  obtain ⟨tc₁, item, hadd, hitem, hpc, rfl⟩ := commitTranslation_ok hcommit
  obtain ⟨recorded, hordered, hwin⟩ := h.ordered
  have hrecorded : recorded address = none := by
    cases hq : recorded address with
    | none => rfl
    | some offset => exact absurd rfl (hfresh _ (hordered.mem_of_recorded address offset hq))
  have hordered₁ := hordered.add hrecorded hadd
    ⟨base, hwin, fun q block hq => by cases hq; exact hwindow⟩
  obtain ⟨-, -, m, hm, -, rfl⟩ := addTranslationItem_ok hadd
  have hoffset : (BitVec.ofNat 32 tc.ptr).toNat = tc.ptr := by
    have hbound := h.layout.bound
    rw [BitVec.toNat_ofNat]
    unfold translationCacheSize at hbound
    omega
  -- The parameters go into the new block: no other entry has the address.
  obtain rfl : item = ⟨address, BitVec.ofNat 32 tc.ptr⟩ := by
    rcases (List.mem_insertIdx hm).mp hitem with heq | hold
    · exact heq
    · exact absurd hpc (hfresh item hold)
  refine ⟨hlayout', ?_, ?_⟩
  · intro e he
    rcases (List.mem_insertIdx hm).mp he with rfl | he
    · refine ⟨t, hmade, hQ, ?_⟩
      simp only [hoffset]
      exact blockAt_patched tc.code tc.ptr t
    · obtain ⟨t', hmade', hq', hblock⟩ := h.content e he
      refine ⟨t', (Function.update_of_ne (hfresh e he) ..).trans hmade', hq', ?_⟩
      have hbelow := h.layout.below e he
      rw [GuestCode.blockEnd, GuestCode.size_of_some hmade'] at hbelow
      have hfit := t.params_fit
      refine hblock.congr fun i _ hi => ?_
      simp only [hoffset]
      rw [memcpy_of_lt (by omega), memcpy_of_lt (by omega)]
  · refine ⟨_, ⟨hordered₁.recorded_of_mem, hordered₁.mem_of_recorded, hordered₁.sorted,
      hordered₁.window⟩, ?_⟩
    intro q hq
    by_cases hqa : q = address
    · exact hqa ▸ hwindow
    · rw [Function.update_of_ne hqa] at hq
      exact hwin q hq

/-- A jumper behind the last block is written over no block. -/
theorem appendJumper (h : made.Keeps base Q tc next)
    (hroom : tc.ptr + jumper.size ≤ translationCacheSize) :
    made.Keeps base Q (Hyrule.appendJumper jumper tc) none where
  layout := h.layout.appendJumper hroom
  content item hitem := by
    obtain ⟨t, hmade, hq, hblock⟩ := h.content item hitem
    refine ⟨t, hmade, hq, hblock.congr fun i _ hi => ?_⟩
    have hbelow := h.layout.below item hitem
    rw [GuestCode.blockEnd, GuestCode.size_of_some hmade] at hbelow
    exact memcpy_of_lt (by omega)
  ordered := by
    obtain ⟨recorded, hordered, hwin⟩ := h.ordered
    exact ⟨recorded, ⟨hordered.recorded_of_mem, hordered.mem_of_recorded, hordered.sorted,
      hordered.window⟩, hwin⟩

end GuestCode.Keeps

/-! ## Translating a unit -/

section Unit

variable {code made : GuestCode jumper} {base pc : Word} {Q : Word → Translation jumper → Prop}
  {tc tc' : TranslationCache}

/-- The addresses from `pc` up to the first instruction that does not fall through. -/
inductive GuestCode.InUnit (code : GuestCode jumper) (pc : Word) : Word → Prop
  | start : code.InUnit pc pc
  | next {p : Word} {t : Translation jumper} : code.InUnit pc p → code p = some t →
      t.fallsThrough = true → code.InUnit pc (p + 4)

theorem GuestCode.InUnit.of_next {p : Word} {t : Translation jumper} (ht : code pc = some t)
    (hfall : t.fallsThrough = true) (h : code.InUnit (pc + 4) p) : code.InUnit pc p := by
  induction h with
  | start => exact .next .start ht hfall
  | next _ hp hfalls ih => exact .next ih hp hfalls

/-- The unit at `pc` lies in one window, and its translations have the property `Q`. -/
structure GuestCode.Supplies (code : GuestCode jumper) (base pc : Word)
    (Q : Word → Translation jumper → Prop) : Prop where
  window : ∀ p, code.InUnit pc p → InWindow base p
  property : ∀ p t, code.InUnit pc p → code p = some t → Q p t

theorem GuestCode.Supplies.next {t : Translation jumper} (h : code.Supplies base pc Q)
    (ht : code pc = some t) (hfall : t.fallsThrough = true) : code.Supplies base (pc + 4) Q where
  window p hp := h.window p (hp.of_next ht hfall)
  property p t' hp := h.property p t' (hp.of_next ht hfall)

/-- A unit once the cache may no longer be flushed. -/
theorem prefetchLoop_keeps (hcode : code.Supplies base pc Q) {fuel : Nat}
    (h : prefetchLoop code fuel tc ⟨pc, false, false⟩ = .ok tc')
    (hkeeps : made.Keeps base Q tc (some pc)) :
    (∃ made' next, GuestCode.Keeps made' base Q tc' next) ∧
      (tc' = tc ∨ tc.ptr < tc'.ptr ∧ tc'.ptr + jumper.size ≤ translationCacheSize) := by
  induction fuel generalizing made tc pc with
  | zero => simp [prefetchLoop] at h
  | succ fuel ih =>
    obtain ⟨rfl, -⟩ | ⟨hsearch, t, ht, ⟨-, -, rfl⟩ | ⟨tc₀, hroom, tc₁, hcommit, hend⟩⟩ :=
      prefetchLoop_cases h
    · exact ⟨⟨_, _, hkeeps⟩, Or.inl rfl⟩
    · exact ⟨⟨_, _, hkeeps⟩, Or.inl rfl⟩
    · obtain ⟨-, rfl⟩ | ⟨-, hflush, -⟩ := hroom
      case inr => cases hflush
      have hkeeps₁ := hkeeps.commit rfl hsearch (hcode.property pc t .start ht)
        (hcode.window pc .start) hcommit
      obtain ⟨hptr, hroom₁, -⟩ := commitTranslation_entries hcommit
      have hpos := t.block.size_pos
      rcases hend with ⟨hfall, hrest⟩ | ⟨-, rfl⟩
      · rw [if_pos hfall] at hkeeps₁
        obtain ⟨hex, rfl | ⟨hlt, hroom'⟩⟩ := ih (hcode.next ht hfall) hrest hkeeps₁
        · exact ⟨hex, Or.inr ⟨by omega, hroom₁⟩⟩
        · exact ⟨hex, Or.inr ⟨by omega, hroom'⟩⟩
      · exact ⟨⟨_, _, hkeeps₁⟩, Or.inr ⟨by omega, hroom₁⟩⟩

/-- The unit whose first instruction is committed to a cache that keeps some code. -/
theorem prefetchLoop_behind (hcode : code.Supplies base pc Q) {fuel : Nat}
    {tc₀ tc₁ : TranslationCache} {t : Translation jumper} (ht : code pc = some t)
    (hkeeps : made.Keeps base Q tc₀ (some pc))
    (hsearch : searchTranslationItem tc₀ pc = .ok none)
    (hcommit : commitTranslation tc₀ pc t = .ok tc₁)
    (hend : t.fallsThrough = true ∧ prefetchLoop code fuel tc₁ ⟨pc + 4, false, false⟩ = .ok tc' ∨
      t.fallsThrough = false ∧ tc' = tc₁) :
    (∃ made' next, GuestCode.Keeps made' base Q tc' next) ∧ tc₀.ptr < tc'.ptr ∧
      tc'.ptr + jumper.size ≤ translationCacheSize := by
  have hkeeps₁ := hkeeps.commit rfl hsearch (hcode.property pc t .start ht)
    (hcode.window pc .start) hcommit
  obtain ⟨hptr, hroom₁, -⟩ := commitTranslation_entries hcommit
  have hpos := t.block.size_pos
  rcases hend with ⟨hfall, hrest⟩ | ⟨-, rfl⟩
  · rw [if_pos hfall] at hkeeps₁
    obtain ⟨hex, rfl | ⟨hlt, hroom⟩⟩ := prefetchLoop_keeps (hcode.next ht hfall) hrest hkeeps₁
    · exact ⟨hex, by omega, hroom₁⟩
    · exact ⟨hex, by omega, hroom⟩
  · exact ⟨⟨_, _, hkeeps₁⟩, by omega, hroom₁⟩

theorem searchTranslationItem_flush (tc : TranslationCache) (q : Word) :
    searchTranslationItem (flushTranslationCache tc) q = .ok none := by
  obtain ⟨r, hr⟩ := searchTranslationItem_returns (flushTranslationCache tc) q
  cases r with
  | none => exact hr
  | some item =>
    obtain ⟨hmem, -⟩ := searchTranslationItem_sound hr
    simp [flushTranslationCache] at hmem

/-- `prefetch_instructions` goes on to keep blocks, those of the entries that were live
and those of the code, unless the unit clashes. -/
theorem GuestCode.Keeps.prefetch (h : made.Keeps base Q tc none) (hcode : code.Supplies base pc Q)
    (hclash : ¬ code.UnitClash tc pc) (hcall : prefetchInstructions code pc tc = .ok tc') :
    ∃ made', GuestCode.Keeps made' base Q tc' none := by
  simp only [prefetchInstructions, bind_eq_ok] at hcall
  obtain ⟨tc₂, hloop, hcall⟩ := hcall
  have hsame : tc.ptr = tc₂.ptr → tc' = tc₂ := fun heq => by
    rw [if_neg (by simp [heq])] at hcall
    simpa using hcall.symm
  have hmoved : tc.ptr ≠ tc₂.ptr → tc' = Hyrule.appendJumper jumper tc₂ := fun hne => by
    rw [if_pos hne] at hcall
    simpa using hcall.symm
  obtain ⟨rfl, -⟩ | ⟨hsearch, t, ht, ⟨-, hflush, -⟩ | ⟨tc₀, hroom, tc₁, hcommit, hend⟩⟩ :=
    prefetchLoop_cases hloop
  · exact hsame rfl ▸ ⟨made, h⟩
  · cases hflush
  obtain ⟨-, rfl⟩ | ⟨hfull, -, rfl⟩ := hroom
  · have hopen : made.Keeps base Q tc₀ (some pc) := ⟨h.layout.weaken _, h.content, h.ordered⟩
    obtain ⟨⟨made', next, hkeeps⟩, hlt, hroom⟩ :=
      prefetchLoop_behind hcode ht hopen hsearch hcommit hend
    exact hmoved (Nat.ne_of_lt hlt) ▸ ⟨made', hkeeps.appendJumper hroom⟩
  · -- The cache has been flushed, so what it keeps is the code of this call.
    have hown : code.Supplies base pc fun p t => code p = some t ∧ Q p t :=
      ⟨hcode.window, fun p t hp ht => ⟨ht, hcode.property p t hp ht⟩⟩
    obtain ⟨⟨made', next, hkeeps⟩, -, hroom⟩ := prefetchLoop_behind hown ht
      (.flush code base _ tc (some pc)) (searchTranslationItem_flush tc pc) hcommit hend
    have hkeeps' := hkeeps.mono fun _ _ h => h.2
    by_cases hptr : tc.ptr = tc₂.ptr
    case neg => exact hmoved hptr ▸ ⟨made', hkeeps'.appendJumper hroom⟩
    rw [hsame hptr]
    have hclosed : code.Layout tc₂ none := by
      rcases hend with ⟨hfall, hrest⟩ | ⟨hfall, rfl⟩
      · refine (prefetchLoop_flushed ht hfall hcommit hrest).resolve_right fun hopen => ?_
        exact hclash ⟨hsearch, ⟨t, ht, hfull⟩, hptr ▸ hopen⟩
      · have hlayout := (code.layout_flush tc (some pc)).commit ht hcommit
        rwa [if_neg (by simp [hfall])] at hlayout
    refine ⟨made', hclosed.congr fun item hitem => ?_, hkeeps'.content, hkeeps'.ordered⟩
    obtain ⟨t', hmade, ⟨hown', -⟩, -⟩ := hkeeps.content item hitem
    rw [hmade, hown']

end Unit

/-! ## Runs -/

/-- A hart with its cache and the words of its guest's code.  Recorded are the words
that an address held when the hart translated, since the last `fence.i`. -/
structure Jit where
  cache : TranslationCache
  words : Word → Option Word
  seen : Word → List Word

/-- What happens to the code of a guest. -/
inductive JitStep where
  /-- `vmresume` with `hart.pc` at an address. -/
  | resume (pc : Word)
  /-- Stores, mappings and the like leave other words in guest memory. -/
  | rewrite (words : Word → Option Word)
  /-- The guest runs a `fence.i`, whose block calls `flush_translation_cache`. -/
  | fenceI

variable (asm : Assembly jumper)

/-- The translation of a word at an address. -/
def Assembly.ofWord (address word : Word) : Option (Translation jumper) :=
  asm.guestCode (fun _ => some word) address

theorem Assembly.guestCode_eq (words : Word → Option Word) (p : Word) :
    asm.guestCode words p = (words p).bind (asm.ofWord p) := by
  unfold Assembly.ofWord Assembly.guestCode
  cases words p with
  | none => rfl
  | some w => rfl

/-- A block that was made from one of the words that were seen at its address. -/
def Assembly.MadeFrom (seen : Word → List Word) (p : Word) (t : Translation jumper) : Prop :=
  ∃ w ∈ seen p, asm.ofWord p w = some t

/-- The blocks that the hart keeps behind `prefetch_instructions` were made from the words
that it has seen by then. -/
theorem GuestCode.Keeps.resume {made : GuestCode jumper} {base pc : Word}
    {seen : Word → List Word} {words : Word → Option Word} {tc tc' : TranslationCache}
    (h : made.Keeps base (asm.MadeFrom seen) tc none)
    (hwindow : ∀ p, (asm.guestCode words).InUnit pc p → InWindow base p)
    (hclash : ¬ (asm.guestCode words).UnitClash tc pc)
    (hcall : prefetchInstructions (asm.guestCode words) pc tc = .ok tc') :
    ∃ made' : GuestCode jumper,
      made'.Keeps base (asm.MadeFrom fun p => (words p).toList ++ seen p) tc' none := by
  refine (h.mono ?_).prefetch ⟨hwindow, ?_⟩ hclash hcall
  · rintro p t ⟨w, hw, ht⟩
    exact ⟨w, List.mem_append_right _ hw, ht⟩
  · intro p t _ ht
    rw [asm.guestCode_eq, Option.bind_eq_some_iff] at ht
    obtain ⟨w, hw, ht⟩ := ht
    exact ⟨w, List.mem_append_left _ (by simp [hw]), ht⟩

/-- The runs of one hart while the code of its guest changes. -/
def jitRuns : System Jit JitStep where
  init j := j.cache = .initial ∧ j.seen = fun _ => []
  step j step j' :=
    match step with
    | .resume pc => ∃ cache, prefetchInstructions (asm.guestCode j.words) pc j.cache = .ok cache ∧
        j' = ⟨cache, j.words, fun p => (j.words p).toList ++ j.seen p⟩
    | .rewrite words => j' = { j with words }
    | .fenceI => j' = ⟨flushTranslationCache j.cache, j.words, fun _ => []⟩

/-- The unit that is translated lies in the window of the hart and does not clash. -/
def Jit.Regular (base : Word) (j : Jit) : JitStep → Prop
  | .resume pc => (∀ p, (asm.guestCode j.words).InUnit pc p → InWindow base p) ∧
      ¬ (asm.guestCode j.words).UnitClash j.cache pc
  | _ => True

/-- No code has changed since the last `fence.i` where the hart translated. -/
def Jit.Fenced (j : Jit) : Prop := ∀ p w, w ∈ j.seen p → j.words p = some w

theorem keeps_of_reachable {base : Word} {j : Jit}
    (h : ((jitRuns asm).restrict (Jit.Regular asm base)).Reachable j) :
    ∃ made : GuestCode jumper, made.Keeps base (asm.MadeFrom j.seen) j.cache none := by
  refine h.invariant (P := fun j => ∃ made : GuestCode jumper,
    made.Keeps base (asm.MadeFrom j.seen) j.cache none) ?_ ?_
  · rintro ⟨cache, words, seen⟩ ⟨rfl, -⟩
    exact ⟨fun _ => none, .flush _ base _ .initial none⟩
  · rintro j step j' ⟨made, hkeeps⟩ ⟨hregular, hstep⟩
    cases step with
    | resume pc =>
      obtain ⟨cache, hcall, rfl⟩ := hstep
      obtain ⟨hwindow, hclash⟩ := hregular
      exact hkeeps.resume asm hwindow hclash hcall
    | rewrite words =>
      obtain rfl := hstep
      exact ⟨made, hkeeps⟩
    | fenceI =>
      obtain rfl := hstep
      exact ⟨made, .flush made base _ j.cache none⟩

/-- Whatever the guest writes over its code, every live entry has in the cache the block
of a word that its address held when the hart translated since the last `fence.i`, as long
as the units lie in one window and do not clash.  Where the code has not changed since, that
is the code that the guest has now, and control comes only to the blocks of that code and to
jumpers. -/
theorem cache_coherent {base : Word} {j : Jit}
    (h : ((jitRuns asm).restrict (Jit.Regular asm base)).Reachable j) :
    (∀ item ∈ j.cache.pcMappings, ∃ w ∈ j.seen item.guestPc, ∃ t,
      asm.ofWord item.guestPc w = some t ∧ BlockAt j.cache.code item.tcOffset.toNat t) ∧
    (j.Fenced →
      (∀ item ∈ j.cache.pcMappings, ∃ t, asm.guestCode j.words item.guestPc = some t ∧
        BlockAt j.cache.code item.tcOffset.toNat t) ∧
      (asm.guestCode j.words).LayoutLaw j.cache ∧ (asm.guestCode j.words).ControlLaw j.cache) := by
  obtain ⟨made, hkeeps⟩ := keeps_of_reachable asm h
  refine ⟨fun item hitem => ?_, fun hfenced => ?_⟩
  · obtain ⟨t, -, ⟨w, hw, ht⟩, hblock⟩ := hkeeps.content item hitem
    exact ⟨w, hw, t, ht, hblock⟩
  · have hnow : ∀ item ∈ j.cache.pcMappings, ∃ t, made item.guestPc = some t ∧
        asm.guestCode j.words item.guestPc = some t ∧
        BlockAt j.cache.code item.tcOffset.toNat t := by
      intro item hitem
      obtain ⟨t, hmade, ⟨w, hw, ht⟩, hblock⟩ := hkeeps.content item hitem
      refine ⟨t, hmade, ?_, hblock⟩
      rw [asm.guestCode_eq, hfenced item.guestPc w hw]
      exact ht
    have hlayout : (asm.guestCode j.words).Layout j.cache none := by
      refine hkeeps.layout.congr fun item hitem => ?_
      obtain ⟨t, hmade, hcode, -⟩ := hnow item hitem
      rw [hmade, hcode]
    refine ⟨fun item hitem => ?_, hlayout.layoutLaw, hlayout.controlLaw⟩
    obtain ⟨t, -, hcode, hblock⟩ := hnow item hitem
    exact ⟨t, hcode, hblock⟩

/-- The first block fits into an empty cache. -/
theorem not_unitClash_of_empty {code : GuestCode jumper} {cache : TranslationCache} {pc : Word}
    (hempty : cache.pcMappings = []) (hptr : cache.ptr = 0) : ¬ code.UnitClash cache pc := by
  rintro ⟨-, ⟨t, ht, hfull⟩, -⟩
  have hroom := t.fits
  rw [unoccupiedCacheSize, if_pos (by simp [TranslationCache.nrTranslatedInstructions, hempty,
    maxInstructionsToTranslate]), hptr] at hfull
  omega

/-- `addi x1, x0, imm` at `0x1000`, with a loop behind it. -/
def loadLoop (imm : BitVec 12) : Word → Option Word := fun p =>
  if p = 0x1000 then some (imm ++ 0x00093#20) else if p = 0x1004 then some 0x6f else none

theorem loadLoop_regular (imm : BitVec 12) {cache : TranslationCache} (seen : Word → List Word)
    (hempty : cache.pcMappings = []) (hptr : cache.ptr = 0) :
    Jit.Regular nopAssembly 0 ⟨cache, loadLoop imm, seen⟩ (.resume 0x1000) := by
  constructor
  · intro p hp
    have hloop : (nopAssembly.guestCode (loadLoop imm) 0x1004).map (·.fallsThrough) =
        some false := rfl
    have hunit : p = 0x1000 ∨ p = 0x1004 := by
      induction hp with
      | start => exact Or.inl rfl
      | next _ ht hfalls ih =>
        rcases ih with rfl | rfl
        · exact Or.inr rfl
        · -- The loop does not fall through.
          rw [ht, Option.map_some, hfalls] at hloop
          cases hloop
    rcases hunit with rfl | rfl
    · decide
    · decide
  · exact not_unitClash_of_empty hempty hptr

/-- The immediate of a rewritten instruction is in the cache after a `fence.i`. -/
theorem cache_coherent_rewritten :
    ∃ j, ((jitRuns nopAssembly).restrict (Jit.Regular nopAssembly 0)).Reachable j ∧
      ⟨0x1000, 0⟩ ∈ j.cache.pcMappings ∧ j.words = loadLoop 2 ∧ j.Fenced ∧
      j.cache.code 4 = 2 := by
  have hrun : (do
      let tc ← prefetchInstructions (nopAssembly.guestCode (loadLoop 1)) 0x1000 .initial
      let tc' ← prefetchInstructions (nopAssembly.guestCode (loadLoop 2)) 0x1000
        (flushTranslationCache tc)
      return tc'.pcMappings) = .ok [⟨0x1000, 0⟩, ⟨0x1004, 16⟩] := by
    decide +kernel
  obtain ⟨tc, hfirst, hrun⟩ := bind_eq_ok.mp hrun
  obtain ⟨tc', hsecond, hrun⟩ := bind_eq_ok.mp hrun
  have hentries : tc'.pcMappings = [⟨0x1000, 0⟩, ⟨0x1004, 16⟩] := by simpa using hrun
  have hmem : (⟨0x1000, 0⟩ : MappingItem) ∈ tc'.pcMappings := by simp [hentries]
  let R := (jitRuns nopAssembly).restrict (Jit.Regular nopAssembly 0)
  have hstart : R.Reachable ⟨.initial, loadLoop 1, fun _ => []⟩ := .init ⟨rfl, rfl⟩
  have hfilled : R.Reachable ⟨tc, loadLoop 1, fun p => (loadLoop 1 p).toList ++ []⟩ :=
    hstart.step (a := .resume 0x1000) ⟨loadLoop_regular 1 _ rfl rfl, tc, hfirst, rfl⟩
  have hrewritten : R.Reachable ⟨tc, loadLoop 2, fun p => (loadLoop 1 p).toList ++ []⟩ :=
    hfilled.step (a := .rewrite (loadLoop 2)) ⟨trivial, rfl⟩
  have hfenced : R.Reachable ⟨flushTranslationCache tc, loadLoop 2, fun _ => []⟩ :=
    hrewritten.step (a := .fenceI) ⟨trivial, rfl⟩
  have hreach : R.Reachable ⟨tc', loadLoop 2, fun p => (loadLoop 2 p).toList ++ []⟩ :=
    hfenced.step (a := .resume 0x1000) ⟨loadLoop_regular 2 _ rfl rfl, tc', hsecond, rfl⟩
  have hnow : Jit.Fenced ⟨tc', loadLoop 2, fun p => (loadLoop 2 p).toList ++ []⟩ := by
    intro p w hw
    simpa using hw
  refine ⟨_, hreach, hmem, rfl, hnow, ?_⟩
  obtain ⟨t, ht, hblock⟩ := ((cache_coherent nopAssembly hreach).2 hnow).1 _ hmem
  have hbyte : (nopAssembly.guestCode (loadLoop 2) 0x1000).map (fun t => (t.block.size, t.byte 4)) =
      some (16, 2) := by
    decide +kernel
  rw [ht] at hbyte
  obtain ⟨hsize, hfour⟩ := Prod.mk.inj (Option.some.inj hbyte)
  exact (hblock 4 (by rw [hsize]; decide)).trans hfour

end Hyrule
