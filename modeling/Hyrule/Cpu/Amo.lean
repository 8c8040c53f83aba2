import Hyrule.Cpu.Hart
import Hyrule.Lib.Transition

/-!
# Atomic memory operations

The slow paths of `translate_amo.c`.  Each reads a word, writes a register and
writes the word back.  `lr.w` also leaves a reservation in a global array of 16
items, and `sc.w` writes only if the array has a valid item for the address and
the hart.

A reservation names the hart that made it, but every hart of the sandbox is
initialised with the id 0.  So an `sc.w` takes a reservation of any task, and a
store by another task clears none.  Two tasks that both execute `lr.w` and then
both `sc.w` both succeed, and one update is lost (`sc_loses_update`).  No update is
lost exactly if every `sc.w` that another task's `sc.w` comes before, since its own
`lr.w`, meets an array without an item for the address (`word_counts_successes`).
-/

namespace Hyrule

open Lib Lib.Result

/-! ## The reservations -/

/-- `struct address_reservation_item`. -/
structure AddressReservationItem where
  addr : Word
  valid : Bool
  hartid : Byte

/-- `MAX_RESERVATION_ITEMS`. -/
def maxReservationItems : Nat := 16

/-- `reservations` and `next_pointer`. -/
structure Reservations where
  items : List AddressReservationItem
  nextPointer : Nat
  length_items : items.length = maxReservationItems
  nextPointer_lt : nextPointer < maxReservationItems

namespace Reservations

/-- The array that `amo_constructor` clears. -/
def initial : Reservations where
  items := List.replicate maxReservationItems ⟨0, false, 0⟩
  nextPointer := 0
  length_items := by simp
  nextPointer_lt := by decide

/-- The item that `lr_slowpath` overwrites: the first invalid one, or the one at
`next_pointer`. -/
def freeItem (r : Reservations) : Nat :=
  (r.items.findIdx? fun item => !item.valid).getD r.nextPointer

/-- The loop of `lr_slowpath` and the writes behind it. -/
def reserve (r : Reservations) (addr : Word) (hart : Hart) : Reservations where
  items := r.items.set r.freeItem ⟨addr, true, BitVec.ofInt 8 hart.hartId⟩
  nextPointer := (r.freeItem + 1) % maxReservationItems
  length_items := by rw [List.length_set, r.length_items]
  nextPointer_lt := Nat.mod_lt _ (by decide)

/-- The loop of `sc_slowpath`. -/
def find (r : Reservations) (addr : Word) (hart : Hart) : Option Nat :=
  r.items.findIdx? fun item =>
    item.valid && item.addr = addr && (item.hartid.toNat : Int) = hart.hartId

/-- The array has a valid item for the address and the id 0. -/
def Holds (r : Reservations) (addr : Word) : Prop :=
  ∃ item ∈ r.items, item.valid = true ∧ item.addr = addr ∧ item.hartid = 0

/-- `reservations[idx].valid = 0`. -/
def clear (r : Reservations) (idx : Nat) : Reservations where
  items := r.items.modify idx fun item => { item with valid := false }
  nextPointer := r.nextPointer
  length_items := by rw [List.length_modify, r.length_items]
  nextPointer_lt := r.nextPointer_lt

theorem freeItem_lt (r : Reservations) : r.freeItem < r.items.length := by
  unfold freeItem
  cases hfree : r.items.findIdx? fun item => !item.valid with
  | none => exact r.length_items ▸ r.nextPointer_lt
  | some i => exact (List.findIdx?_eq_some_iff_getElem.mp hfree).1

variable {r : Reservations} {addr : Word} {hart : Hart}

/-- What `lr_slowpath` writes is found. -/
theorem holds_reserve (hhart : hart.hartId = 0) : (r.reserve addr hart).Holds addr := by
  refine ⟨⟨addr, true, 0⟩, ?_, rfl, rfl, rfl⟩
  show _ ∈ r.items.set r.freeItem ⟨addr, true, BitVec.ofInt 8 hart.hartId⟩
  rw [hhart]
  exact List.mem_set r.freeItem_lt _

/-- A hart with the id 0 finds nothing exactly where the array has no such item. -/
theorem find_eq_none (hhart : hart.hartId = 0) : r.find addr hart = none ↔ ¬ r.Holds addr := by
  rw [find, List.findIdx?_eq_none_iff, Holds, not_exists]
  refine forall_congr' fun item => ?_
  have hid : (item.hartid.toNat : Int) = 0 ↔ item.hartid = 0 := by
    rw [Int.natCast_eq_zero, BitVec.toNat_eq]
    rfl
  rw [not_and, hhart]
  refine imp_congr_right fun _ => ?_
  simp only [Bool.and_eq_false_iff, decide_eq_false_iff_not, hid]
  grind

end Reservations

/-! ## The slow paths -/

/-- What an atomic operation reads and writes: the hart that executes it, the
host memory and the reservations. -/
structure AmoState where
  hart : Hart
  heap : HostHeap
  reservations : Reservations

/-- The slow paths that write `op` of the word and `rs2` back. -/
def amoSlowpath (op : Word → Word → Word) (t : RegionTable) (s : AmoState)
    (rs1 rs2 rd : RegisterIndex) : Result AmoState := do
  let address := s.hart.registers rs1
  let operand := s.hart.registers rs2
  let hart := s.hart.setRegister rd (← mmuRead32Aligned s.heap t address)
  let heap ← mmuWrite32Aligned s.heap t address (op (hart.registers rd) operand)
  return { s with hart, heap }

/-- `amoadd_slowpath`. -/
def amoaddSlowpath := amoSlowpath fun old operand => old + operand

/-- `amoswap_slowpath`. -/
def amoswapSlowpath := amoSlowpath fun _ operand => operand

/-- `amoxor_slowpath`. -/
def amoxorSlowpath := amoSlowpath fun old operand => old ^^^ operand

/-- `amoor_slowpath`. -/
def amoorSlowpath := amoSlowpath fun old operand => old ||| operand

/-- `amoand_slowpath`. -/
def amoandSlowpath := amoSlowpath fun old operand => old &&& operand

/-- `amomaxu_slowpath`. -/
def amomaxuSlowpath := amoSlowpath fun old operand => if operand < old then old else operand

/-- `lr_slowpath`. -/
def lrSlowpath (t : RegionTable) (s : AmoState) (rs1 _rs2 rd : RegisterIndex) :
    Result AmoState := do
  let address := s.hart.registers rs1
  let value ← mmuRead32Aligned s.heap t address
  return { s with
    hart := s.hart.setRegister rd value
    reservations := s.reservations.reserve address s.hart }

/-- `sc_slowpath`. -/
def scSlowpath (t : RegionTable) (s : AmoState) (rs1 rs2 rd : RegisterIndex) :
    Result AmoState := do
  let address := s.hart.registers rs1
  let value := s.hart.registers rs2
  match s.reservations.find address s.hart with
  | some idx =>
      let heap ← mmuWrite32Aligned s.heap t address value
      return ⟨s.hart.setRegister rd 0, heap, s.reservations.clear idx⟩
  | none => return { s with hart := s.hart.setRegister rd 1 }

/-- `amo_instruction_slowpath`. -/
def amoInstructionSlowpath (funct5 : Nat) (t : RegionTable) (s : AmoState)
    (rs1 rs2 rd : RegisterIndex) : Result AmoState :=
  match funct5 with
  | 0x0 => amoaddSlowpath t s rs1 rs2 rd
  | 0x1 => amoswapSlowpath t s rs1 rs2 rd
  | 0x2 => lrSlowpath t s rs1 rs2 rd
  | 0x3 => scSlowpath t s rs1 rs2 rd
  | 0x4 => amoxorSlowpath t s rs1 rs2 rd
  | 0x8 => amoorSlowpath t s rs1 rs2 rd
  | 0xc => amoandSlowpath t s rs1 rs2 rd
  | 0x1c => amomaxuSlowpath t s rs1 rs2 rd
  | _ => throw .assertion

/-- The translated block of an atomic operation. -/
def amoInstruction (funct5 : Nat) (t : RegionTable) (s : AmoState)
    (rs1 rs2 rd : RegisterIndex) : Result AmoState := do
  let s ← amoInstructionSlowpath funct5 t s rs1 rs2 rd
  return { s with hart := s.hart.proceed }

/-! ## What `lr.w` and `sc.w` do -/

theorem lr_ok {t : RegionTable} {s s' : AmoState} {rs1 rs2 rd : RegisterIndex} (hrd : rd ≠ 0)
    (h : amoInstruction 0x2 t s rs1 rs2 rd = .ok s') :
    s'.heap = s.heap ∧ s'.hart.hartId = s.hart.hartId ∧
      s'.reservations = s.reservations.reserve (s.hart.registers rs1) s.hart ∧
      mmuRead32Aligned s.heap t (s.hart.registers rs1) = .ok (s'.hart.registers rd) := by
  simp only [amoInstruction, amoInstructionSlowpath, lrSlowpath, bind_eq_ok, pure_eq_ok,
    Except.ok.injEq] at h
  obtain ⟨s₁, ⟨value, hread, rfl⟩, rfl⟩ := h
  exact ⟨rfl, rfl, rfl, by simpa [Hart.proceed_registers hrd] using hread⟩

theorem sc_hartId {t : RegionTable} {s s' : AmoState} {rs1 rs2 rd : RegisterIndex}
    (h : amoInstruction 0x3 t s rs1 rs2 rd = .ok s') : s'.hart.hartId = s.hart.hartId := by
  simp only [amoInstruction, amoInstructionSlowpath, scSlowpath, bind_eq_ok] at h
  obtain ⟨s₁, h₁, h⟩ := h
  cases h
  split at h₁
  next =>
    obtain ⟨heap, -, h₁⟩ := bind_eq_ok.mp h₁
    cases h₁
    rfl
  next =>
    cases h₁
    rfl

/-- An `sc.w` that finds a reservation stores its operand and reports success,
and one that finds none reports failure. -/
theorem sc_ok {t : RegionTable} {s s' : AmoState} {rs1 rs2 rd : RegisterIndex} (hrd : rd ≠ 0)
    (h : amoInstruction 0x3 t s rs1 rs2 rd = .ok s') :
    (s.reservations.find (s.hart.registers rs1) s.hart ≠ none ∧ s'.hart.registers rd = 0 ∧
        mmuWrite32Aligned s.heap t (s.hart.registers rs1) (s.hart.registers rs2) = .ok s'.heap) ∨
      s.reservations.find (s.hart.registers rs1) s.hart = none ∧ s'.hart.registers rd = 1 ∧
        s'.heap = s.heap := by
  simp only [amoInstruction, amoInstructionSlowpath, scSlowpath, bind_eq_ok] at h
  obtain ⟨s₁, h₁, h⟩ := h
  cases hfind : s.reservations.find (s.hart.registers rs1) s.hart with
  | none =>
    rw [hfind] at h₁
    cases h₁
    cases h
    exact Or.inr ⟨rfl, by simp [Hart.proceed_registers hrd], rfl⟩
  | some idx =>
    rw [hfind] at h₁
    obtain ⟨heap, hwrite, h₁⟩ := bind_eq_ok.mp h₁
    cases h₁
    cases h
    exact Or.inl ⟨by simp, by simp [Hart.proceed_registers hrd], hwrite⟩

/-! ## Tasks that contend for a word -/

/-- Tasks that share the host memory under one region table. -/
structure Contention where
  heap : HostHeap
  reservations : Reservations
  harts : Nat → Hart
  /-- The value that the task's last `lr.w` read, up to its `sc.w`. -/
  loaded : Nat → Option Word
  /-- Another task has executed an `sc.w` since the task's last `lr.w`. -/
  contested : Nat → Bool
  /-- Another task's `sc.w` has reported success since the task's last `lr.w`. -/
  overtaken : Nat → Bool
  /-- The number of `sc.w` that have reported success. -/
  successes : Nat

/-- A step of a task: other instructions that leave its registers somehow, an
`lr.w`, or an `sc.w`. -/
inductive AttemptStep where
  | compute (task : Nat) (registers : RegisterIndex → Word) (pc : Word)
  | lr (task : Nat) (rs1 rs2 rd : RegisterIndex)
  | sc (task : Nat) (rs1 rs2 rd : RegisterIndex)

namespace Contention

variable (t : RegionTable) (address : Word)

/-- The hart, memory and reservations that an instruction of a task works on. -/
def amoState (s : Contention) (task : Nat) : AmoState := ⟨s.harts task, s.heap, s.reservations⟩

/-- The state after a step.  An attempt is an `lr.w` of the word and an `sc.w` of
the value read plus one. -/
def next (s : Contention) : AttemptStep → Option Contention
  | .compute task registers pc =>
      some { s with harts := Function.update s.harts task { s.harts task with registers, pc } }
  | .lr task rs1 rs2 rd =>
      if (s.harts task).registers rs1 = address ∧ rd ≠ 0 then
        match amoInstruction 0x2 t (s.amoState task) rs1 rs2 rd with
        | .error _ => none
        | .ok s' => some
            { heap := s'.heap
              reservations := s'.reservations
              harts := Function.update s.harts task s'.hart
              loaded := Function.update s.loaded task (some (s'.hart.registers rd))
              contested := Function.update s.contested task false
              overtaken := Function.update s.overtaken task false
              successes := s.successes }
      else none
  | .sc task rs1 rs2 rd =>
      if (s.harts task).registers rs1 = address ∧ rd ≠ 0 ∧
          s.loaded task = some ((s.harts task).registers rs2 - 1) then
        match amoInstruction 0x3 t (s.amoState task) rs1 rs2 rd with
        | .error _ => none
        | .ok s' =>
            let success := s'.hart.registers rd = 0
            some
              { heap := s'.heap
                reservations := s'.reservations
                harts := Function.update s.harts task s'.hart
                loaded := Function.update s.loaded task none
                contested := fun u => s.contested u || decide (u ≠ task)
                overtaken := fun u => s.overtaken u || (decide success && decide (u ≠ task))
                successes := if success then s.successes + 1 else s.successes }
      else none

/-- The runs of any number of tasks on the word at an address, from a value on.
Every hart has the id 0.  The reservations may be left from earlier code. -/
def runs (initial : Word) : System Contention AttemptStep where
  init s := mmuRead32Aligned s.heap t address = .ok initial ∧ (∀ task, (s.harts task).hartId = 0) ∧
    (∀ task, s.loaded task = none) ∧ (∀ task, s.overtaken task = false) ∧ s.successes = 0
  step s step s' := s.next t address step = some s'

/-- Behind a step the word is its first value plus the successes, and the step is no `sc.w`
that succeeds behind another task's success since its own `lr.w`. -/
structure KeepsUpdates (initial : Word) (s : Contention) (step : AttemptStep) (s' : Contention) :
    Prop where
  word : mmuRead32Aligned s'.heap t address = .ok (initial + BitVec.ofNat 32 s'.successes)
  update : ∀ task rs1 rs2 rd, step = .sc task rs1 rs2 rd → s.overtaken task = true →
    (s'.harts task).registers rd ≠ 0

/-- An `sc.w` that another task's `sc.w` comes before, since its own `lr.w`, meets an array
without an item for the address. -/
def MeetsNoItem (s : Contention) : AttemptStep → Prop
  | .sc task _ _ _ => s.contested task = true → ¬ s.reservations.Holds address
  | _ => True

/-- The word is its first value plus the successes, and an attempt that is not overtaken has
read it as it is. -/
structure Counts (initial : Word) (s : Contention) : Prop where
  word : mmuRead32Aligned s.heap t address = .ok (initial + BitVec.ofNat 32 s.successes)
  loaded : ∀ task v, s.loaded task = some v → s.overtaken task = false →
    v = initial + BitVec.ofNat 32 s.successes

/-- Who is overtaken is contested.  An attempt that is not overtaken has its item, so no
`sc.w` of another task has failed behind its `lr.w`. -/
structure Reserved (s : Contention) : Prop where
  harts : ∀ task, (s.harts task).hartId = 0
  contested : ∀ task, s.loaded task ≠ none → s.overtaken task = true → s.contested task = true
  holds : ∀ task, s.loaded task ≠ none → s.overtaken task = false →
    s.contested task = false ∧ s.reservations.Holds address

variable {t address} {initial : Word} {s s' : Contention}

section Steps

variable {task : Nat} {rs1 rs2 rd : RegisterIndex}

/-- What an `lr.w` does. -/
theorem next_lr (h : s.next t address (.lr task rs1 rs2 rd) = some s') :
    ∃ hart v, hart.hartId = (s.harts task).hartId ∧
      mmuRead32Aligned s.heap t address = .ok v ∧
      s' = { s with
        reservations := s.reservations.reserve address (s.harts task)
        harts := Function.update s.harts task hart
        loaded := Function.update s.loaded task (some v)
        contested := Function.update s.contested task false
        overtaken := Function.update s.overtaken task false } := by
  simp only [Contention.next] at h
  split at h
  next hcond =>
    obtain ⟨rfl, hrd⟩ := hcond
    split at h
    next => cases h
    next s₁ hlr =>
      obtain ⟨hheap, hid, hreservations, hread⟩ := lr_ok hrd hlr
      obtain rfl := Option.some.inj h
      refine ⟨s₁.hart, _, hid, hread, ?_⟩
      rw [hheap, hreservations]
      rfl
  next => cases h

/-- What an `sc.w` does.  It succeeds exactly if there is an item for the address. -/
theorem next_sc (hhart : (s.harts task).hartId = 0)
    (h : s.next t address (.sc task rs1 rs2 rd) = some s') :
    ∃ v, s.loaded task = some v ∧ (s'.harts task).hartId = 0 ∧
      (∀ u, u ≠ task → s'.harts u = s.harts u) ∧
      (∀ u v', s'.loaded u = some v' → u ≠ task ∧ s.loaded u = some v') ∧
      (∀ u, s'.contested u = (s.contested u || decide (u ≠ task))) ∧
      (s.reservations.Holds address ∧ (s'.harts task).registers rd = 0 ∧
          mmuWrite32Aligned s.heap t address (v + 1) = .ok s'.heap ∧
          (∀ u, s'.overtaken u = (s.overtaken u || decide (u ≠ task))) ∧
          s'.successes = s.successes + 1 ∨
        ¬ s.reservations.Holds address ∧ (s'.harts task).registers rd = 1 ∧ s'.heap = s.heap ∧
          s'.overtaken = s.overtaken ∧ s'.successes = s.successes) := by
  simp only [Contention.next] at h
  split at h
  next hcond =>
    obtain ⟨rfl, hrd, hpending⟩ := hcond
    split at h
    next => cases h
    next s₁ hsc =>
      obtain rfl := Option.some.inj h
      refine ⟨_, hpending, ?_, ?_, fun u v' hu => ?_, fun _ => rfl, ?_⟩
      · show (Function.update s.harts task s₁.hart task).hartId = 0
        rw [Function.update_self, sc_hartId hsc]
        exact hhart
      · intro u hu
        exact Function.update_of_ne hu _ _
      · rcases eq_or_ne u task with rfl | hne
        · simp only [Function.update_self, reduceCtorEq] at hu
        · simp only [Function.update_of_ne hne] at hu
          exact ⟨hne, hu⟩
      · simp only [Function.update_self]
        rcases sc_ok hrd hsc with ⟨hfind, hreport, hwrite⟩ | ⟨hfind, hreport, hheap⟩
        · refine Or.inl ⟨?_, hreport, ?_, ?_, if_pos hreport⟩
          · exact not_not.mp fun hnone => hfind ((Reservations.find_eq_none hhart).mpr hnone)
          · rw [sub_add_cancel]
            exact hwrite
          · intro u
            rw [decide_eq_true hreport, Bool.true_and]
        · have hne : ¬ s₁.hart.registers rd = 0 := by
            rw [hreport]
            decide
          refine Or.inr ⟨(Reservations.find_eq_none hhart).mp hfind, hreport, hheap, ?_,
            if_neg hne⟩
          funext u
          rw [decide_eq_false hne, Bool.false_and, Bool.or_false]
  next => cases h

end Steps

theorem Reserved.next {step : AttemptStep} (h : s.Reserved address)
    (hstep : s.next t address step = some s') : s'.Reserved address := by
  cases step with
  | compute task registers pc =>
    obtain rfl := Option.some.inj hstep
    exact ⟨(Function.forall_update_iff s.harts fun _ hart => hart.hartId = 0).mpr
      ⟨h.harts task, fun u _ => h.harts u⟩, h.contested, h.holds⟩
  | lr task rs1 rs2 rd =>
    obtain ⟨hart, v, hid, -, rfl⟩ := next_lr hstep
    have hholds : (s.reservations.reserve address (s.harts task)).Holds address :=
      Reservations.holds_reserve (h.harts task)
    refine ⟨(Function.forall_update_iff s.harts fun _ hart => hart.hartId = 0).mpr
      ⟨hid.trans (h.harts task), fun u _ => h.harts u⟩, fun u => ?_, fun u => ?_⟩
    all_goals rcases eq_or_ne u task with rfl | hu
    · simp only [Function.update_self, Bool.false_eq_true, false_imp_iff, implies_true]
    · simp only [Function.update_of_ne hu]
      exact h.contested u
    · simp only [Function.update_self]
      exact fun _ _ => ⟨trivial, hholds⟩
    · simp only [Function.update_of_ne hu]
      exact fun hloaded hover => ⟨(h.holds u hloaded hover).1, hholds⟩
  | sc task rs1 rs2 rd =>
    obtain ⟨v, -, hid, hothers, hloaded, hcontested, houtcome⟩ := next_sc (h.harts task) hstep
    -- An attempt of the task is over, and every other one is contested now.
    have hpending : ∀ u, s'.loaded u ≠ none → u ≠ task ∧ s.loaded u ≠ none := by
      intro u hu
      obtain ⟨v', hv'⟩ := Option.ne_none_iff_exists'.mp hu
      obtain ⟨hne, hs⟩ := hloaded u v' hv'
      exact ⟨hne, Option.ne_none_iff_exists'.mpr ⟨v', hs⟩⟩
    refine ⟨fun u => ?_, fun u hu _ => ?_, fun u hu hover => ?_⟩
    · rcases eq_or_ne u task with rfl | hne
      · exact hid
      · rw [hothers u hne]
        exact h.harts u
    · rw [hcontested, decide_eq_true (hpending u hu).1, Bool.or_true]
    · obtain ⟨hne, hu⟩ := hpending u hu
      rcases houtcome with ⟨-, -, -, hovertaken, -⟩ | ⟨hnone, -, -, hovertaken, -⟩
      · rw [hovertaken, decide_eq_true hne, Bool.or_true] at hover
        cases hover
      · rw [hovertaken] at hover
        exact absurd (h.holds u hu hover).2 hnone

/-- An `sc.w` that meets the condition and that a success has overtaken meets no item. -/
theorem MeetsNoItem.not_holds {task : Nat} {rs1 rs2 rd : RegisterIndex} {v : Word}
    (h : s.MeetsNoItem address (.sc task rs1 rs2 rd)) (hreserved : s.Reserved address)
    (hpending : s.loaded task = some v) (hover : s.overtaken task = true) :
    ¬ s.reservations.Holds address := by
  have hsome : s.loaded task ≠ none := by rw [hpending]; exact Option.some_ne_none v
  exact h (hreserved.contested task hsome hover)

theorem Counts.next {step : AttemptStep} (h : s.Counts t address initial)
    (hreserved : s.Reserved address) (hmeets : s.MeetsNoItem address step)
    (hstep : s.next t address step = some s') : s'.Counts t address initial := by
  cases step with
  | compute task registers pc =>
    obtain rfl := Option.some.inj hstep
    exact ⟨h.word, h.loaded⟩
  | lr task rs1 rs2 rd =>
    obtain ⟨hart, v, -, hread, rfl⟩ := next_lr hstep
    rw [h.word, Except.ok.injEq] at hread
    refine ⟨h.word, fun u w hw hover => ?_⟩
    rcases eq_or_ne u task with rfl | hu
    · simp only [Function.update_self, Option.some.injEq] at hw
      exact hw.symm.trans hread.symm
    · simp only [Function.update_of_ne hu] at hw hover
      exact h.loaded u w hw hover
  | sc task rs1 rs2 rd =>
    obtain ⟨v, hpending, -, -, hloaded, -, houtcome⟩ := next_sc (hreserved.harts task) hstep
    rcases houtcome with ⟨hholds, -, hwrite, hovertaken, hcount⟩ |
      ⟨-, -, hheap, hovertaken, hcount⟩
    · have hover : s.overtaken task = false := by
        by_contra hover
        rw [Bool.not_eq_false] at hover
        exact hmeets.not_holds hreserved hpending hover hholds
      have hvalue := h.loaded task v hpending hover
      obtain ⟨heap', hwrite', hread⟩ := mmuRead32Aligned_write h.word (v + 1)
      rw [hwrite, Except.ok.injEq] at hwrite'
      refine ⟨?_, fun u w hw hover' => ?_⟩
      · rw [hwrite', hread, hcount, hvalue, BitVec.ofNat_add, BitVec.add_assoc]
        rfl
      · rw [hovertaken, decide_eq_true (hloaded u w hw).1, Bool.or_true] at hover'
        cases hover'
    · refine ⟨by rw [hheap, hcount]; exact h.word, fun u w hw hover => ?_⟩
      rw [hovertaken] at hover
      rw [hcount]
      exact h.loaded u w (hloaded u w hw).2 hover

theorem reserved_of_reachable (h : (runs t address initial).Reachable s) :
    s.Reserved address := by
  refine h.invariant (P := Reserved address) ?_ fun _ _ _ h hstep => h.next hstep
  rintro s ⟨-, hharts, hloaded, -, -⟩
  exact ⟨hharts, fun task h => absurd (hloaded task) h, fun task h => absurd (hloaded task) h⟩

/-- In a run whose `sc.w` meet the condition the word counts the successes. -/
theorem counts_of_reachable
    (h : ((runs t address initial).restrict (MeetsNoItem address)).Reachable s) :
    s.Counts t address initial := by
  induction h with
  | init hinit =>
    obtain ⟨hword, -, hloaded, -, hzero⟩ := hinit
    refine ⟨by rw [hword, hzero]; simp, fun task v hv => ?_⟩
    rw [hloaded] at hv
    cases hv
  | step hreach hstep ih =>
    exact ih.next (reserved_of_reachable hreach.of_restrict) hstep.1 hstep.2

/-- A step that overwrites no update meets the condition: its `sc.w` takes an item if there is
one, so it is not overtaken, and nobody else has executed an `sc.w`. -/
theorem KeepsUpdates.meetsNoItem {step : AttemptStep}
    (h : s.KeepsUpdates t address initial step s') (hreserved : s.Reserved address)
    (hstep : s.next t address step = some s') : s.MeetsNoItem address step := by
  cases step with
  | compute task registers pc => trivial
  | lr task rs1 rs2 rd => trivial
  | sc task rs1 rs2 rd =>
    intro hcontested hholds
    obtain ⟨v, hpending, -, -, -, -, houtcome⟩ := next_sc (hreserved.harts task) hstep
    rcases houtcome with ⟨-, hreport, -⟩ | ⟨hnone, -⟩
    · have hsome : s.loaded task ≠ none := by rw [hpending]; exact Option.some_ne_none v
      have hover : s.overtaken task = false := by
        rw [← Bool.not_eq_true]
        exact fun hover => h.update task rs1 rs2 rd rfl hover hreport
      rw [(hreserved.holds task hsome hover).1] at hcontested
      cases hcontested
    · exact hnone hholds

/-- A step that meets the condition overwrites no update. -/
theorem MeetsNoItem.update {task : Nat} {rs1 rs2 rd : RegisterIndex}
    (h : s.MeetsNoItem address (.sc task rs1 rs2 rd)) (hreserved : s.Reserved address)
    (hstep : s.next t address (.sc task rs1 rs2 rd) = some s') (hover : s.overtaken task = true) :
    (s'.harts task).registers rd ≠ 0 := by
  obtain ⟨v, hpending, -, -, -, -, houtcome⟩ := next_sc (hreserved.harts task) hstep
  rcases houtcome with ⟨hholds, -⟩ | ⟨-, hreport, -⟩
  · exact absurd hholds (h.not_holds hreserved hpending hover)
  · rw [hreport]
    decide

end Contention

/-- In every run, the word is always its first value plus the number of successes and no
`sc.w` overwrites another task's update, exactly if every contested `sc.w` meets an array
without an item for the address. -/
theorem word_counts_successes {t : RegionTable} {address initial : Word} {s s' : Contention}
    {steps : List (System.Step Contention AttemptStep)}
    (hinit : (Contention.runs t address initial).init s)
    (hrun : (Contention.runs t address initial).Run s steps s') :
    (∀ x ∈ steps, x.before.KeepsUpdates t address initial x.label x.after) ↔
      ∀ x ∈ steps, x.before.MeetsNoItem address x.label := by
  constructor
  · intro h x hx
    obtain ⟨hreach, hstep⟩ := hrun.mem (.init hinit) hx
    exact (h x hx).meetsNoItem (Contention.reserved_of_reachable hreach) hstep
  · intro h x hx
    obtain ⟨hreach, hmeets, hstep⟩ := (hrun.restrict h).mem (.init hinit) hx
    refine ⟨(Contention.counts_of_reachable (hreach.step ⟨hmeets, hstep⟩)).word, ?_⟩
    rintro task rs1 rs2 rd hlabel hover
    rw [hlabel] at hmeets hstep
    exact hmeets.update (Contention.reserved_of_reachable hreach.of_restrict) hstep hover

/-- One page at `0x1000`, for reading and writing. -/
def onePage : RegionTable := ⟨[⟨0x1000, 0x2000, 6, some 0⟩], []⟩

/-- Tasks with the address `0x1000` in one register and 1 in another, on a page of
zeros. -/
def freshTasks : Contention where
  heap p := if p = 0 then some ⟨4096, fun _ => 0⟩ else none
  reservations := .initial
  harts _ := ((Hart.initial 0).setRegister 10 0x1000).setRegister 11 1
  loaded _ := none
  contested _ := false
  overtaken _ := false
  successes := 0

theorem freshTasks_init : (Contention.runs onePage 0x1000 0).init freshTasks :=
  ⟨by decide +kernel, fun _ => rfl, fun _ => rfl, fun _ => rfl, rfl⟩

/-- Two tasks read 0.  One stores, and the other one reads again before it does. -/
def turns : List AttemptStep :=
  [.lr 0 10 0 12, .lr 1 10 0 12, .sc 0 10 11 13, .lr 1 10 0 12,
    .compute 1 (fun i => if i = 10 then 0x1000 else if i = 11 then 2 else 0) 0, .sc 1 10 11 13]

/-- Two tasks take turns. -/
theorem word_counts_successes_turns :
    ∃ steps s, (Contention.runs onePage 0x1000 0).Run freshTasks steps s ∧
      steps.map (fun x => x.label) = turns ∧ s.successes = 2 ∧
      ∀ x ∈ steps, x.before.KeepsUpdates onePage 0x1000 0 x.label x.after := by
  have hrun : ((do
      let s₁ ← freshTasks.next onePage 0x1000 (.lr 0 10 0 12)
      let s₂ ← s₁.next onePage 0x1000 (.lr 1 10 0 12)
      let s₃ ← s₂.next onePage 0x1000 (.sc 0 10 11 13)
      let s₄ ← s₃.next onePage 0x1000 (.lr 1 10 0 12)
      let s₅ ← s₄.next onePage 0x1000
        (.compute 1 (fun i => if i = 10 then 0x1000 else if i = 11 then 2 else 0) 0)
      let s₆ ← s₅.next onePage 0x1000 (.sc 1 10 11 13)
      return decide (s₂.contested 0 = false ∧ s₅.contested 1 = false ∧ s₆.successes = 2)) :
        Option _) = some true := by
    decide +kernel
  simp only [Option.bind_eq_bind, Option.bind_eq_some_iff, Option.pure_def, Option.some.injEq,
    decide_eq_true_eq] at hrun
  obtain ⟨s₁, h₁, s₂, h₂, s₃, h₃, s₄, h₄, s₅, h₅, s₆, h₆, hfirst, hsecond, htwo⟩ := hrun
  have hsteps : (Contention.runs onePage 0x1000 0).Run freshTasks _ s₆ :=
    .cons h₁ (.cons h₂ (.cons h₃ (.cons h₄ (.cons h₅ (.cons h₆ (.nil s₆))))))
  refine ⟨_, s₆, hsteps, rfl, htwo, ?_⟩
  rw [word_counts_successes freshTasks_init hsteps]
  simp only [List.forall_mem_cons, List.not_mem_nil, false_imp_iff, implies_true, and_true]
  refine ⟨trivial, trivial, fun h => ?_, trivial, trivial, fun h => ?_⟩
  · rw [hfirst] at h
    cases h
  · rw [hsecond] at h
    cases h

/-- Two tasks read 0, and both then store 1 with success. -/
theorem sc_loses_update :
    ¬ ∀ s, (Contention.runs onePage 0x1000 0).Reachable s →
      mmuRead32Aligned s.heap onePage 0x1000 = .ok (0 + BitVec.ofNat 32 s.successes) := by
  intro h
  have hrun : (([.lr 0 10 0 12, .lr 1 10 0 12, .sc 0 10 11 13, .sc 1 10 11 13] :
      List AttemptStep).foldlM (Contention.next onePage 0x1000) freshTasks).map
        (fun s => (mmuRead32Aligned s.heap onePage 0x1000, s.successes)) = some (.ok 1, 2) := by
    decide +kernel
  obtain ⟨s, hs, hpair⟩ := Option.map_eq_some_iff.mp hrun
  obtain ⟨hword, htwo⟩ := Prod.mk.inj hpair
  have hreach : (Contention.runs onePage 0x1000 0).Reachable s :=
    System.Reachable.foldlM (fun _ _ _ h => h) (.init freshTasks_init) hs
  have := h s hreach
  rw [hword, htwo] at this
  revert this
  decide

end Hyrule
