import Hyrule.Cpu.Blocks

/-!
# The zero register of a block

`x0` is a word of `struct hart` like the other registers.  A template that writes
its `rd` may write it, and so does the slow path of the atomic operations.
`RESET_ZERO_REGISTER` is what makes it zero again.

Whether a template gets this right can be read off its code.  `ZeroCheck.next`
follows the code, knows at each place whether `x0` is certainly zero, and rejects
code that reads a register or calls a function where it is not.  Such code keeps
`x0` zero and reads it as zero (`Describes.exec`), whatever the parameters are.  Every
template passes the check (`zeroCheck_code`).
-/

namespace Hyrule

open Lib Lib.X86

/-! ## The check -/

/-- The registers of the host that hold the addresses of the hart. -/
def pinned : List Reg := [.r12, .r14, .r15]

/-- What is known at a place of the code. -/
structure ZeroCheck where
  /-- `x0` is zero. -/
  clean : Bool
  /-- The labels that a jump may look for. -/
  pending : List Nat
deriving DecidableEq

/-- What is known behind an instruction, if it may stand there.  Between a jump and
its label, only instructions inside the processor may. -/
def ZeroCheck.next (a : ZeroCheck) (i : X86.Instr Callback) : Option ZeroCheck :=
  match i with
  | .load addr dst =>
      if a.pending = [] ∧ (a.clean = true ∨ addr = .r14) ∧ dst ∉ pinned then some a else none
  | .store _ addr =>
      if a.pending = [] then some { a with clean := a.clean && addr == .r14 } else none
  | .storeImm value addr =>
      if a.pending = [] ∧ value = 0 ∧ addr = .r15 then some { a with clean := true } else none
  | .addlMem _ addr => if a.pending = [] ∧ addr = .r14 then some a else none
  | .call f saved =>
      if a.pending = [] ∧ a.clean = true ∧ pinned ⊆ saved then
        some { a with clean := f != .amoInstructionSlowpath }
      else none
  | .label n => some { a with pending := a.pending.filter (· ≠ n) }
  | i =>
      if ∀ r ∈ i.written, r ∉ pinned then some { a with pending := i.targets ++ a.pending }
      else none

/-- What is known at the start of a block, and what has to be known at its end. -/
def ZeroCheck.start : ZeroCheck := ⟨true, []⟩

/-- Every template passes the check. -/
theorem zeroCheck_code (template : Template) :
    template.code.foldlM ZeroCheck.next .start = some .start := by
  cases template <;> rfl

/-! ## Soundness -/

section Soundness

variable {ω : Type} {W : ω → Prop} {base : Quad} {callbacks : Callbacks ω} {params : List Word}

/-- The rest of the world is as it has to be, and `x0` was only read as zero. -/
structure Machine.ReadsZero (W : ω → Prop) (m : Machine ω) : Prop where
  world : W m.world
  operands : ∀ value, (0, value) ∈ m.operands → value = 0

/-- The called functions, on a machine whose `x0` is zero, only read it as zero.  All
but the slow path of the atomic operations leave it zero, and so does that one where it
raises an exception. -/
def KeepsZero (W : ω → Prop) (callbacks : Callbacks ω) : Prop :=
  ∀ f regs m outcome m', m.hart.registers 0 = 0 → m.ReadsZero W →
    callbacks f regs m = .ok (outcome, m') →
    m'.ReadsZero W ∧
      (f ≠ .amoInstructionSlowpath ∨ outcome = .leaves → m'.hart.registers 0 = 0)

/-- What is known at a place holds. -/
structure ZeroCheck.Describes (a : ZeroCheck) (W : ω → Prop) (base : Quad)
    (sc : X86.State (Machine ω) × Control) : Prop where
  entered : Entered base sc.1.regs
  reads : sc.1.mem.ReadsZero W
  clean : a.clean = true ∨ sc.2 = .left → sc.1.mem.hart.registers 0 = 0
  seeks : ∀ l, sc.2 = .seek l → l ∈ a.pending

theorem Machine.ReadsZero.readOperand {m : Machine ω} (h : m.ReadsZero W)
    (hzero : m.hart.registers 0 = 0) (i : RegisterIndex) : (m.readOperand i).ReadsZero W := by
  refine ⟨h.world, fun value hmem => ?_⟩
  rcases List.mem_cons.mp hmem with heq | hmem
  · obtain ⟨rfl, rfl⟩ := Prod.mk.inj heq
    exact hzero
  · exact h.operands value hmem

theorem Machine.ReadsZero.withHart {m : Machine ω} (h : m.ReadsZero W) (hart : Hart) :
    (m.withHart hart).ReadsZero W :=
  ⟨h.world, h.operands⟩

/-- A load is of a register, which is then an operand, or of the pc. -/
theorem hartBus_load_ok {addr : Quad} {value : Long} {m m' : Machine ω}
    (h : (hartBus base callbacks).load addr m = .ok (value, m')) :
    (∃ i, m' = m.readOperand i) ∨ m' = m := by
  simp only [hartBus] at h
  split at h
  next i _ =>
    cases h
    exact Or.inl ⟨i, rfl⟩
  next =>
    cases h
    exact Or.inr rfl
  next => cases h

theorem hartBus_store_ok {addr : Quad} {value : Long} {m m' : Machine ω}
    (h : (hartBus base callbacks).store addr value m = .ok m') : ∃ hart, m' = m.withHart hart := by
  simp only [hartBus] at h
  split at h
  next =>
    cases h
    exact ⟨_, rfl⟩
  next =>
    cases h
    exact ⟨_, rfl⟩
  next => cases h

/-- A load with `x0` zero, or of the pc. -/
theorem Machine.ReadsZero.load {addr : Quad} {value : Long} {m m' : Machine ω}
    (h : m.ReadsZero W) (hzero : m.hart.registers 0 = 0 ∨ addr = base + offsetOfPc)
    (hload : (hartBus base callbacks).load addr m = .ok (value, m')) :
    m'.ReadsZero W ∧ m'.hart = m.hart := by
  rcases hzero with hzero | rfl
  · rcases hartBus_load_ok hload with ⟨i, rfl⟩ | rfl
    · exact ⟨h.readOperand hzero i, rfl⟩
    · exact ⟨h, rfl⟩
  · rw [load_pc] at hload
    cases hload
    exact ⟨h, rfl⟩

variable {a a' : ZeroCheck} {i : X86.Instr Callback} {s : X86.State (Machine ω)}
  {sc sc' : X86.State (Machine ω) × Control}

/-- What has to hold at a place that the block runs on from. -/
theorem ZeroCheck.Describes.running (hentered : Entered base s.regs)
    (hreads : s.mem.ReadsZero W) (hclean : a.clean = true → s.mem.hart.registers 0 = 0) :
    a.Describes W base (s, .run) := by
  refine ⟨hentered, hreads, ?_, fun l hl => nomatch hl⟩
  rintro (hc | hc)
  · exact hclean hc
  · cases hc

/-- While a label is looked for, nothing is learned but labels. -/
theorem ZeroCheck.next_of_pending {l : Nat} (hl : l ∈ a.pending) (h : a.next i = some a') :
    a'.clean = a.clean ∧ ((∀ n, i ≠ .label n) → l ∈ a'.pending) := by
  have hne : a.pending ≠ [] := List.ne_nil_of_mem hl
  cases i with
  | load | store | storeImm | addlMem | call => simp [ZeroCheck.next, hne] at h
  | label n =>
    cases h
    exact ⟨rfl, fun hlabel => absurd rfl (hlabel n)⟩
  | _ =>
    simp only [ZeroCheck.next, Option.ite_none_right_eq_some] at h
    obtain ⟨-, h⟩ := h
    cases h
    exact ⟨rfl, fun _ => List.mem_append_right _ hl⟩

/-- An instruction that reaches neither memory nor a function keeps what is known. -/
theorem ZeroCheck.Describes.inside (h : a.Describes W base (s, .run)) (hi : i.inside = true)
    (hnext : a.next i = some a') (hstep : step (hartBus base callbacks) params s i = .ok sc') :
    a'.Describes W base sc' := by
  obtain ⟨hmem, hregs, hcontrol⟩ := step_inside hi hstep
  have hknown : a'.clean = a.clean ∧ (∀ r ∈ i.written, r ∉ pinned) ∧
      ∀ l ∈ i.targets, l ∈ a'.pending := by
    cases i with
    | load | store | storeImm | addlMem | call => cases hi
    | label n =>
      cases hnext
      exact ⟨rfl, by simp [Instr.written], by simp [Instr.targets]⟩
    | _ =>
      simp only [ZeroCheck.next, Option.ite_none_right_eq_some] at hnext
      obtain ⟨hwritten, hnext⟩ := hnext
      cases hnext
      exact ⟨rfl, hwritten, fun l hl => List.mem_append_left _ hl⟩
  obtain ⟨hclean, hwritten, htargets⟩ := hknown
  refine ⟨h.entered.of_eq fun r hr => hregs r fun hw => hwritten r hw hr, ?_, ?_, ?_⟩
  · rw [hmem]
    exact h.reads
  · rintro (hc | hc)
    · rw [hmem]
      exact h.clean (Or.inl (hclean ▸ hc))
    · rcases hcontrol with hrun | ⟨l, -, hseek⟩
      · simp [hrun] at hc
      · simp [hseek] at hc
  · intro l hl
    rcases hcontrol with hrun | ⟨l', hl', hseek⟩
    · simp [hrun] at hl
    · obtain rfl : l' = l := by simpa [hseek] using hl
      exact htargets _ hl'

/-- An access to memory or a call keeps what is known. -/
theorem ZeroCheck.Describes.outside (hcalls : KeepsZero W callbacks)
    (h : a.Describes W base (s, .run)) (hi : i.inside = false) (hnext : a.next i = some a')
    (hstep : step (hartBus base callbacks) params s i = .ok sc') : a'.Describes W base sc' := by
  have hentered := h.entered
  have hreads := h.reads
  cases i with
  | load addr dst =>
    simp only [ZeroCheck.next, Option.ite_none_right_eq_some] at hnext
    obtain ⟨⟨-, hclean, hdst⟩, hnext⟩ := hnext
    cases hnext
    obtain ⟨⟨value, mem⟩, hload, hstep⟩ := bind_eq_ok.mp hstep
    cases hstep
    replace hload := lift_eq_ok hload
    have hregs : ∀ r ∈ pinned, ((s.withMem mem).setLong dst value).regs r = s.regs r := by
      intro r hr
      have hne : r ≠ dst := fun heq => hdst (heq ▸ hr)
      simp [hne]
    have hzero : s.mem.hart.registers 0 = 0 ∨ s.regs addr = base + offsetOfPc := by
      rcases hclean with hclean | rfl
      · exact Or.inl (h.clean (Or.inl hclean))
      · exact Or.inr hentered.r14
    obtain ⟨hreads', hhart⟩ := hreads.load hzero hload
    exact .running (hentered.of_eq hregs) hreads' fun hc =>
      (congrArg (·.registers 0) hhart).trans (h.clean (Or.inl hc))
  | store src addr =>
    simp only [ZeroCheck.next, Option.ite_none_right_eq_some] at hnext
    obtain ⟨-, hnext⟩ := hnext
    cases hnext
    obtain ⟨mem, hstore, hstep⟩ := bind_eq_ok.mp hstep
    cases hstep
    replace hstore := lift_eq_ok hstore
    obtain ⟨hart, rfl⟩ := hartBus_store_ok hstore
    refine .running hentered (hreads.withHart hart) fun hc => ?_
    -- The zero register is known only if the store was to the pc.
    simp only [Bool.and_eq_true, beq_iff_eq] at hc
    rw [hc.2, hentered.r14, store_pc] at hstore
    cases hstore
    exact h.clean (Or.inl hc.1)
  | storeImm value addr =>
    simp only [ZeroCheck.next, Option.ite_none_right_eq_some] at hnext
    obtain ⟨⟨-, rfl, rfl⟩, hnext⟩ := hnext
    cases hnext
    obtain ⟨mem, hstore, hstep⟩ := bind_eq_ok.mp hstep
    cases hstep
    rw [hentered.r15, store_zero] at hstore
    cases hstore
    exact .running hentered (hreads.withHart _) fun _ => Hart.setRegister_self _ _ _
  | addlMem value addr =>
    simp only [ZeroCheck.next, Option.ite_none_right_eq_some] at hnext
    obtain ⟨⟨-, rfl⟩, hnext⟩ := hnext
    cases hnext
    obtain ⟨⟨old, mem⟩, hload, hstep⟩ := bind_eq_ok.mp hstep
    obtain ⟨mem', hstore, hstep⟩ := bind_eq_ok.mp hstep
    cases hstep
    rw [hentered.r14, load_pc] at hload
    cases hload
    rw [hentered.r14, store_pc] at hstore
    cases hstore
    exact .running hentered (hreads.withHart _) fun hc => h.clean (Or.inl hc)
  | call f saved =>
    simp only [ZeroCheck.next, Option.ite_none_right_eq_some] at hnext
    obtain ⟨⟨-, hclean, hsaved⟩, hnext⟩ := hnext
    cases hnext
    obtain ⟨⟨outcome, mem⟩, hcall, hstep⟩ := bind_eq_ok.mp hstep
    obtain ⟨hreads', hzero⟩ :=
      hcalls f s.regs s.mem outcome mem (h.clean (Or.inl hclean)) hreads (lift_eq_ok hcall)
    cases outcome with
    | returns regs =>
      cases hstep
      exact .running (hentered.of_eq fun r hr => if_pos (hsaved hr)) hreads' fun hc =>
        hzero (Or.inl (by simpa using hc))
    | leaves =>
      cases hstep
      exact ⟨hentered, hreads', fun _ => hzero (Or.inr rfl), fun l hl => nomatch hl⟩
  | _ => cases hi

/-- One instruction of a block, run or skipped, keeps what is known. -/
theorem ZeroCheck.Describes.advance (hcalls : KeepsZero W callbacks) (h : a.Describes W base sc)
    (hnext : a.next i = some a')
    (hstep : advance (hartBus base callbacks) params sc i = .ok sc') : a'.Describes W base sc' := by
  obtain ⟨s, c⟩ := sc
  cases c with
  | run =>
    cases hi : i.inside with
    | true => exact h.inside hi hnext hstep
    | false => exact h.outside hcalls hi hnext hstep
  | left =>
    cases hstep
    exact ⟨h.entered, h.reads, fun _ => h.clean (Or.inr rfl), fun l hl => nomatch hl⟩
  | seek l =>
    obtain ⟨hclean, hpending⟩ := next_of_pending (h.seeks l rfl) hnext
    have hzero : a'.clean = true → s.mem.hart.registers 0 = 0 :=
      fun hc => h.clean (Or.inl (hclean ▸ hc))
    simp only [X86.advance] at hstep
    split at hstep
    next n =>
      cases hnext
      cases hstep
      refine ⟨h.entered, h.reads, ?_, ?_⟩
      · rintro (hc | hc)
        · exact hzero hc
        · split at hc <;> cases hc
      · intro l' hl'
        split at hl'
        next => cases hl'
        next hne =>
          cases hl'
          exact List.mem_filter.mpr ⟨h.seeks l rfl, by simpa using Ne.symm hne⟩
    next hlabel =>
      cases hstep
      refine ⟨h.entered, h.reads, ?_, ?_⟩
      · rintro (hc | hc)
        · exact hzero hc
        · cases hc
      · intro l' hl'
        cases hl'
        exact hpending hlabel

/-- Code that passes the check keeps what is known. -/
theorem ZeroCheck.Describes.exec (hcalls : KeepsZero W callbacks) {code : HostCode}
    (h : a.Describes W base sc) (hcheck : code.foldlM ZeroCheck.next a = some a')
    (hexec : exec (hartBus base callbacks) params code sc = .ok sc') :
    a'.Describes W base sc' := by
  induction code generalizing a sc with
  | nil =>
    cases hcheck
    cases hexec
    exact h
  | cons i code ih =>
    rw [List.foldlM_cons, Option.bind_eq_bind, Option.bind_eq_some_iff] at hcheck
    obtain ⟨a₁, hnext, hcheck⟩ := hcheck
    obtain ⟨sc₁, hstep, hexec⟩ := bind_eq_ok.mp hexec
    exact ih (h.advance hcalls hnext hstep) hcheck hexec

/-- At every place of a block, `x0` was only read as zero. -/
theorem prefix_readsZero (hcalls : KeepsZero W callbacks) {template : Template} {code : HostCode}
    (hcode : code <+: template.code) (h : ZeroCheck.start.Describes W base (s, .run))
    (hexec : exec (hartBus base callbacks) params code (s, .run) = .ok sc') :
    sc'.1.mem.ReadsZero W := by
  obtain ⟨rest, hrest⟩ := hcode
  have hcheck := zeroCheck_code template
  rw [← hrest, List.foldlM_append, Option.bind_eq_bind, Option.bind_eq_some_iff] at hcheck
  obtain ⟨a, hcheck, -⟩ := hcheck
  exact (h.exec hcalls hcheck hexec).reads

/-- Behind a block `x0` is zero. -/
theorem TranslatedBlock.run_zero (hcalls : KeepsZero W callbacks) {b : TranslatedBlock}
    (h : ZeroCheck.start.Describes W base (s, .run))
    (hrun : b.run base callbacks s = .ok sc') :
    sc'.1.mem.ReadsZero W ∧ sc'.1.mem.hart.registers 0 = 0 := by
  have hend := h.exec hcalls (zeroCheck_code b.template) hrun
  exact ⟨hend.reads, hend.clean (Or.inl rfl)⟩

end Soundness

end Hyrule
