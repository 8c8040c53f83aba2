import Hyrule.Lib.Chain
import Hyrule.Task.Forest

/-!
# Owners

What holds in every reachable forest.  Parents come before their children, so
`get_linked_vm` ends in the owner of the resource (`getLinkedVm_iff`).  A task
that shares a resource has an empty copy of it, since every call works on the
copy of the owner.  No two regions of any tasks have the same buffer.

`Keeps` says what every call but `clone` keeps, and `Cloned` what `clone` does.
Both are proved once for all runs; the results about tasks use only these two and
the invariant `WellFormed`.
-/

namespace Hyrule

open Lib Lib.Result

variable {P : Prop} {s s' : Forest} {t u owner : TaskId} {hint : LinkageHint}

/-! ## The owner of a resource -/

/-- The task that the loop of `get_linked_vm` looks at next. -/
def Forest.next (s : Forest) (hint : LinkageHint) (t : TaskId) : Option TaskId :=
  if (s.vm t).links.shouldGo hint then (s.vm t).links.parent else none

/-- The task has the owner of the resource above it. -/
def Forest.Owns (s : Forest) (hint : LinkageHint) (t owner : TaskId) : Prop :=
  Climbs (s.next hint) t owner

/-- The links of a forest: a task that shares something has a parent, which is older. -/
structure WellLinked (s : Forest) : Prop where
  parent_lt : ∀ t p, (s.vm t).links.parent = some p → p < t
  parent_of_shared : ∀ t hint, (s.vm t).links.shouldGo hint = true →
    ∃ p, (s.vm t).links.parent = some p

namespace WellLinked

theorem next_lt (h : WellLinked s) {p : TaskId} (hp : s.next hint t = some p) : p < t := by
  unfold Forest.next at hp
  split at hp
  next => exact h.parent_lt t p hp
  next => cases hp

theorem next_eq_none_iff (h : WellLinked s) :
    s.next hint t = none ↔ (s.vm t).links.shouldGo hint = false := by
  unfold Forest.next
  cases hgo : (s.vm t).links.shouldGo hint with
  | false => simp
  | true =>
    obtain ⟨p, hp⟩ := h.parent_of_shared t hint hgo
    simp [hp]

theorem linkedVmLoop_eq (h : WellLinked s) (hint : LinkageHint) (fuel : Nat) (t : TaskId) :
    linkedVmLoop s hint fuel t =
      match climb (s.next hint) fuel t with
      | some owner => .ok owner
      | none => .error .divergence := by
  induction fuel generalizing t with
  | zero => rfl
  | succ fuel ih =>
    rw [linkedVmLoop, climb]
    unfold Forest.next
    cases hgo : (s.vm t).links.shouldGo hint with
    | false => rfl
    | true =>
      obtain ⟨p, hp⟩ := h.parent_of_shared t hint hgo
      rw [hp]
      exact ih p

/-- `get_linked_vm` returns exactly the owner. -/
theorem getLinkedVm_iff (h : WellLinked s) (ht : t < s.nrTasks) :
    getLinkedVm s t hint = .ok owner ↔ s.Owns hint t owner := by
  have hrank : ∀ a b, s.next hint a = some b → b < a := fun a b hb => h.next_lt hb
  have hclimb : climb (s.next hint) s.nrTasks t = some owner ↔ Climbs (s.next hint) t owner :=
    climb_eq_some_iff id hrank ht
  rw [getLinkedVm, h.linkedVmLoop_eq, Forest.Owns, ← hclimb]
  cases climb (s.next hint) s.nrTasks t with
  | none => simp
  | some o => simp

theorem exists_owner (h : WellLinked s) (hint : LinkageHint) (t : TaskId) :
    ∃ owner, s.Owns hint t owner := by
  have hrank : ∀ a b, s.next hint a = some b → b < a := fun a b hb => h.next_lt hb
  obtain ⟨owner, hclimb⟩ := climb_of_rank id hrank (Nat.lt_succ_self t)
  exact ⟨owner, climbs_of_climb hclimb⟩

theorem owner_le (h : WellLinked s) (howns : s.Owns hint t owner) : owner ≤ t := by
  refine howns.induct (P := (· ≤ t)) ?_ (Nat.le_refl t)
  intro a b ha hb
  exact (Nat.le_of_lt (h.next_lt hb)).trans ha

/-- The owner does not share the resource. -/
theorem owner_shouldGo (h : WellLinked s) (howns : s.Owns hint t owner) :
    (s.vm owner).links.shouldGo hint = false :=
  h.next_eq_none_iff.mp howns.next_top

end WellLinked

/-- A task that does not share the resource owns it. -/
theorem owns_self (h : (s.vm t).links.shouldGo hint = false) : s.Owns hint t t := by
  refine .top ?_
  simp [Forest.next, h]

/-! ## The invariant -/

/-- The buffers that a task owns. -/
def Forest.bases (s : Forest) (t : TaskId) : List (HostPointer × Nat) := (s.vm t).memory.bases

/-- What holds in every reachable forest. -/
structure WellFormed (s : Forest) : Prop extends WellLinked s where
  beyond : ∀ t, s.nrTasks ≤ t → s.vm t = .zero
  memory_of_shared : ∀ t, (s.vm t).links.clonedVm = true → (s.vm t).memory = .empty
  dirs_of_shared : ∀ t, (s.vm t).links.clonedFs = true → (s.vm t).dirs = .empty
  files_of_shared : ∀ t, (s.vm t).links.clonedFiles = true → (s.vm t).files = .zero
  root_length : ∀ t, (s.vm t).dirs.root.length < nameSize
  isolated : Isolated Buffer.size s.heap s.bases
  finite : {p | s.heap p ≠ none}.Finite
  inOrder : ∀ t, RegionsInOrder (s.vm t).memory.regions.pmrOps

/-! ## What a task uses -/

/-- The memory that a task uses, as it sees it. -/
def Forest.usedMemory (s : Forest) (t : TaskId) : Result (List RegionView) := do
  let owner ← getLinkedVm s t .vm
  return memoryView s.heap (s.vm owner).memory

/-- The directories that a task uses. -/
def Forest.usedDirs (s : Forest) (t : TaskId) : Result Directories := do
  let owner ← getLinkedVm s t .fs
  return (s.vm owner).dirs

/-- The valid descriptors that a task uses. -/
def Forest.usedDescriptors (s : Forest) (t : TaskId) :
    Result (Fin maxFilesNr → Option Descriptor) := do
  let owner ← getLinkedVm s t .files
  return (s.vm owner).files.descriptors

/-- A task that does not share a resource finds itself. -/
theorem WellFormed.getLinkedVm_self (hs : WellFormed s) (hint : LinkageHint)
    (ht : t < s.nrTasks) (h : (s.vm t).links.shouldGo hint = false) :
    getLinkedVm s t hint = .ok t :=
  (hs.getLinkedVm_iff ht).mpr (owns_self h)

/-! ## What a call leaves alone -/

section Fields

variable {α : Type} (field : Vm → α) {s s' : Forest} {t : TaskId}

theorem field_setVm (vm' : Vm) (h : field vm' = field (s.vm t)) (u : TaskId) :
    field ((s.setVm t vm').vm u) = field (s.vm u) := by
  by_cases hu : u = t
  · subst hu
    simpa only [Forest.setVm, Function.update_self] using h
  · simp only [Forest.setVm, Function.update_of_ne hu]

/-- A field of every task stays the same, and no pid is handed out. -/
structure SameField (s s' : Forest) : Prop where
  same : ∀ u, field (s'.vm u) = field (s.vm u)
  counter : s'.gpidCounter = s.gpidCounter

variable {field}

theorem SameField.trans {s'' : Forest} (h : SameField field s s') (h' : SameField field s' s'') :
    SameField field s s'' :=
  ⟨fun u => (h'.same u).trans (h.same u), h'.counter.trans h.counter⟩

theorem sameField_setVm {vm' : Vm} (heap : HostHeap) (h : field vm' = field (s.vm t)) :
    SameField field s { s.setVm t vm' with heap } :=
  ⟨field_setVm field vm' h, rfl⟩

/-- A call on a memory keeps the other fields of every task. -/
theorem onMemory_sameField (hfield : ∀ vm memory, field { vm with memory } = field vm)
    {call : HostHeap → VirtualMemory → Result (HostHeap × VirtualMemory)}
    (h : onMemory s t call = .ok s') : SameField field s s' := by
  obtain ⟨owner, -, h⟩ := bind_eq_ok.mp h
  obtain ⟨⟨heap', memory'⟩, -, h⟩ := bind_eq_ok.mp h
  cases h
  exact sameField_setVm _ (hfield _ _)

theorem reclaimTask_sameField
    (hfield : ∀ vm memory links refCount, field { vm with memory, links, refCount } = field vm)
    (h : reclaimTask s t = .ok s') : SameField field s s' := by
  unfold reclaimTask at h
  split at h
  next =>
    obtain ⟨parent, -, h⟩ := bind_eq_ok.mp h
    cases h
    have hparent : SameField field s (s.setVm parent (deferenceTask (s.vm parent))) :=
      sameField_setVm s.heap (hfield _ _ _ _)
    exact hparent.trans (sameField_setVm s.heap (hfield _ _ _ _))
  next =>
    cases hreclaim : reclaimVirtualMemory s.heap (s.vm t).memory with
    | mk heap memory =>
      rw [hreclaim] at h
      cases h
      exact sameField_setVm _ (hfield _ _ _ _)

theorem loadTask_sameField (hfield : ∀ vm hart memory, field { vm with hart, memory } = field vm)
    {alloc : Allocator} {content : Option (List Byte)} {argv envp : List CString}
    (h : loadTask alloc s t content argv envp = .ok s') : SameField field s s' := by
  obtain ⟨⟨heap₁, hart₁, memory⟩, -, h⟩ := bind_eq_ok.mp h
  obtain ⟨⟨heap₂, hart₂⟩, -, h⟩ := bind_eq_ok.mp h
  cases h
  exact sameField_setVm _ (hfield _ _ _)

theorem callExecve_sameField
    (hfield : ∀ vm hart memory links refCount,
      field { vm with hart, memory, links, refCount } = field vm)
    {args : ExecveArgs} {alloc : Allocator} {hostFiles : CString → Option (List Byte)}
    (h : callExecve s t args alloc hostFiles = .ok s') : SameField field s s' := by
  obtain ⟨envp, -, h⟩ := bind_eq_ok.mp h
  obtain ⟨owner, -, h⟩ := bind_eq_ok.mp h
  obtain ⟨s₁, hreclaim, h⟩ := bind_eq_ok.mp h
  obtain ⟨hostCpath, -, h⟩ := bind_eq_ok.mp h
  have hreclaimed : SameField field s s₁ :=
    reclaimTask_sameField (fun vm memory links refCount => hfield vm vm.hart _ _ _) hreclaim
  have hreset : SameField field s₁ (s₁.setVm t { s₁.vm t with hart := (s₁.vm t).hart.reset }) :=
    sameField_setVm s₁.heap (hfield _ _ _ _ _)
  have hloaded := loadTask_sameField (fun vm hart memory => hfield vm hart memory _ _) h
  exact (hreclaimed.trans hreset).trans hloaded

/-- A field that is none of those that a call but `clone` writes. -/
theorem TaskCall.run_sameField {call : TaskCall}
    (hfield : ∀ vm hart memory links refCount,
      field { vm with hart, memory, links, refCount } = field vm)
    (hdirs : ∀ path, call = .chdir path → ∀ vm dirs, field { vm with dirs } = field vm)
    (hfiles : ∀ c, call = .file c → ∀ vm files, field { vm with files } = field vm)
    (hclone : ∀ args alloc answers, call ≠ .clone args alloc answers)
    (h : call.run s t = .ok s') : SameField field s s' := by
  have hmemory : ∀ vm memory, field { vm with memory } = field vm :=
    fun vm memory => hfield vm vm.hart memory vm.links vm.refCount
  cases call with
  | clone args alloc answers => exact absurd rfl (hclone args alloc answers)
  | chdir path =>
    obtain ⟨owner, -, h⟩ := bind_eq_ok.mp h
    obtain ⟨cwd, -, h⟩ := bind_eq_ok.mp h
    cases h
    exact sameField_setVm s.heap (hdirs path rfl _ _)
  | execve args alloc hostFiles => exact callExecve_sameField hfield h
  | mmap proposalAddr len prot flags alloc =>
    rw [TaskCall.run] at h
    exact onMemory_sameField hmemory h
  | munmap addr len =>
    rw [TaskCall.run] at h
    exact onMemory_sameField hmemory h
  | brk addr alloc added =>
    rw [TaskCall.run] at h
    exact onMemory_sameField hmemory h
  | store address bytes =>
    rw [TaskCall.run] at h
    exact onMemory_sameField hmemory h
  | file c =>
    obtain ⟨dirsOwner, -, h⟩ := bind_eq_ok.mp h
    obtain ⟨owner, -, h⟩ := bind_eq_ok.mp h
    obtain ⟨⟨rv, files⟩, -, h⟩ := bind_eq_ok.mp h
    cases h
    exact sameField_setVm s.heap (hfiles c rfl _ _)
  | instructions registers pc =>
    cases h
    exact sameField_setVm s.heap (hfield _ _ _ _ _)

/-! ## What a call does to memories -/

/-- A call on a memory changes that of the owner only. -/
theorem onMemory_memory {call : HostHeap → VirtualMemory → Result (HostHeap × VirtualMemory)}
    (h : onMemory s t call = .ok s') :
    ∃ owner heap', getLinkedVm s t .vm = .ok owner ∧
      call s.heap (s.vm owner).memory = .ok (heap', (s'.vm owner).memory) ∧
      ∀ u, u ≠ owner → (s'.vm u).memory = (s.vm u).memory := by
  obtain ⟨owner, howner, h⟩ := bind_eq_ok.mp h
  obtain ⟨⟨heap', memory'⟩, hcall, h⟩ := bind_eq_ok.mp h
  cases h
  refine ⟨owner, heap', howner, ?_, fun u hu => ?_⟩
  · simpa only [Forest.setVm, Function.update_self] using hcall
  · simp only [Forest.setVm, Function.update_of_ne hu]

/-- The call changes no table of regions. -/
def TaskCall.KeepsRegions : TaskCall → Prop
  | .chdir _ => True
  | .store _ _ => True
  | .file _ => True
  | .instructions _ _ => True
  | _ => False

theorem TaskCall.run_memory {call : TaskCall} (h : call.run s t = .ok s')
    (hkeeps : call.KeepsRegions) (u : TaskId) : (s'.vm u).memory = (s.vm u).memory := by
  cases call with
  | chdir path =>
    obtain ⟨owner, -, h⟩ := bind_eq_ok.mp h
    obtain ⟨cwd, -, h⟩ := bind_eq_ok.mp h
    cases h
    exact field_setVm Vm.memory _ (by rfl) u
  | store address bytes =>
    rw [TaskCall.run] at h
    obtain ⟨owner, heap', -, hcall, hothers⟩ := onMemory_memory h
    obtain ⟨⟨base, offset⟩, -, hcall⟩ := bind_eq_ok.mp hcall
    obtain ⟨heap₁, -, hcall⟩ := bind_eq_ok.mp hcall
    simp only [pure_eq_ok, Except.ok.injEq, Prod.mk.injEq] at hcall
    by_cases hu : u = owner
    · rw [hu]
      exact hcall.2.symm
    · exact hothers u hu
  | file c =>
    obtain ⟨dirsOwner, -, h⟩ := bind_eq_ok.mp h
    obtain ⟨owner, -, h⟩ := bind_eq_ok.mp h
    obtain ⟨⟨rv, files⟩, -, h⟩ := bind_eq_ok.mp h
    cases h
    exact field_setVm Vm.memory _ (by rfl) u
  | instructions registers pc =>
    cases h
    exact field_setVm Vm.memory _ (by rfl) u
  | clone | execve | mmap | munmap | brk => cases hkeeps

end Fields

/-! ## What every call but `clone` keeps -/

/-- The tasks keep their links and roots, and a task that shares a resource keeps its
own copy of it.  No buffer is lost if `P` holds. -/
structure Keeps (P : Prop) (s s' : Forest) : Prop where
  nrTasks : s'.nrTasks = s.nrTasks
  links : ∀ u, (s'.vm u).links = (s.vm u).links
  root : ∀ u, (s'.vm u).dirs.root = (s.vm u).dirs.root
  memory : ∀ u, (s.vm u).links.clonedVm = true → (s'.vm u).memory = (s.vm u).memory
  dirs : ∀ u, (s.vm u).links.clonedFs = true → (s'.vm u).dirs = (s.vm u).dirs
  files : ∀ u, (s.vm u).links.clonedFiles = true → (s'.vm u).files = (s.vm u).files
  beyond : ∀ u, s.nrTasks ≤ u → s'.vm u = s.vm u
  isolated : Isolated Buffer.size s.heap s.bases → Isolated Buffer.size s'.heap s'.bases
  finite : {p | s.heap p ≠ none}.Finite → {p | s'.heap p ≠ none}.Finite
  accounted : P → Accounted s.heap s.bases → Accounted s'.heap s'.bases
  inOrder : ∀ u, RegionsInOrder (s.vm u).memory.regions.pmrOps →
    RegionsInOrder (s'.vm u).memory.regions.pmrOps

theorem Keeps.trans {s'' : Forest} (h : Keeps P s s') (h' : Keeps P s' s'') : Keeps P s s'' where
  nrTasks := h'.nrTasks.trans h.nrTasks
  links u := (h'.links u).trans (h.links u)
  root u := (h'.root u).trans (h.root u)
  memory u hu := (h'.memory u (by rwa [h.links u])).trans (h.memory u hu)
  dirs u hu := (h'.dirs u (by rwa [h.links u])).trans (h.dirs u hu)
  files u hu := (h'.files u (by rwa [h.links u])).trans (h.files u hu)
  beyond u hu := (h'.beyond u (by rwa [h.nrTasks])).trans (h.beyond u hu)
  isolated := h'.isolated ∘ h.isolated
  finite := h'.finite ∘ h.finite
  accounted hP := h'.accounted hP ∘ h.accounted hP
  inOrder u := h'.inOrder u ∘ h.inOrder u

theorem WellFormed.keeps (h : WellFormed s) (hk : Keeps P s s') : WellFormed s' where
  parent_lt t p hp := h.parent_lt t p (by rwa [hk.links t] at hp)
  parent_of_shared t hint hgo := by
    rw [hk.links t] at hgo ⊢
    exact h.parent_of_shared t hint hgo
  beyond t ht := by
    rw [hk.nrTasks] at ht
    exact (hk.beyond t ht).trans (h.beyond t ht)
  memory_of_shared t ht := by
    rw [hk.links t] at ht
    exact (hk.memory t ht).trans (h.memory_of_shared t ht)
  dirs_of_shared t ht := by
    rw [hk.links t] at ht
    exact (hk.dirs t ht).trans (h.dirs_of_shared t ht)
  files_of_shared t ht := by
    rw [hk.links t] at ht
    exact (hk.files t ht).trans (h.files_of_shared t ht)
  root_length t := by
    rw [hk.root t]
    exact h.root_length t
  isolated := hk.isolated h.isolated
  finite := hk.finite h.finite
  inOrder t := hk.inOrder t (h.inOrder t)

/-- A task is overwritten, and only its own buffers change. -/
theorem keeps_setVm {vm' : Vm} {heap' : HostHeap} (ht : t < s.nrTasks)
    (hlinks : vm'.links = (s.vm t).links) (hroot : vm'.dirs.root = (s.vm t).dirs.root)
    (hmemory : (s.vm t).links.clonedVm = true → vm'.memory = (s.vm t).memory)
    (hdirs : (s.vm t).links.clonedFs = true → vm'.dirs = (s.vm t).dirs)
    (hfiles : (s.vm t).links.clonedFiles = true → vm'.files = (s.vm t).files)
    (htransfer : Transfer Buffer.size P s.heap (s.vm t).memory.bases heap' vm'.memory.bases)
    (horder : RegionsInOrder (s.vm t).memory.regions.pmrOps →
      RegionsInOrder vm'.memory.regions.pmrOps) :
    Keeps P s { s.setVm t vm' with heap := heap' } := by
  have hself : Function.update s.vm t vm' t = vm' := Function.update_self _ _ _
  have hother : ∀ u, u ≠ t → Function.update s.vm t vm' u = s.vm u :=
    fun u hne => Function.update_of_ne hne _ _
  have hbases : Forest.bases { s.setVm t vm' with heap := heap' } =
      Function.update s.bases t vm'.memory.bases := by
    funext u
    by_cases hne : u = t
    · subst hne
      rw [Function.update_self]
      exact congrArg (fun vm => vm.memory.bases) hself
    · rw [Function.update_of_ne hne]
      exact congrArg (fun vm => vm.memory.bases) (hother u hne)
  refine
    { nrTasks := rfl
      links := fun u => ?_
      root := fun u => ?_
      memory := fun u hu => ?_
      dirs := fun u hu => ?_
      files := fun u hu => ?_
      beyond := fun u hu => hother u (Nat.ne_of_gt (Nat.lt_of_lt_of_le ht hu))
      isolated := fun h => hbases ▸ h.transfer htransfer
      finite := htransfer.finite
      accounted := fun hP h => hbases ▸ h.transfer htransfer hP
      inOrder := fun u hu => ?_ }
  · by_cases hne : u = t
    · rw [hne]
      exact (congrArg Vm.links hself).trans hlinks
    · exact congrArg Vm.links (hother u hne)
  · by_cases hne : u = t
    · rw [hne]
      exact (congrArg (fun vm => vm.dirs.root) hself).trans hroot
    · exact congrArg (fun vm => vm.dirs.root) (hother u hne)
  · by_cases hne : u = t
    · subst hne
      exact (congrArg Vm.memory hself).trans (hmemory hu)
    · exact congrArg Vm.memory (hother u hne)
  · by_cases hne : u = t
    · subst hne
      exact (congrArg Vm.dirs hself).trans (hdirs hu)
    · exact congrArg Vm.dirs (hother u hne)
  · by_cases hne : u = t
    · subst hne
      exact (congrArg Vm.files hself).trans (hfiles hu)
    · exact congrArg Vm.files (hother u hne)
  · simp only [Forest.setVm]
    by_cases hne : u = t
    · subst hne
      rw [hself]
      exact horder hu
    · rwa [hother u hne]

theorem onMemory_keeps (hs : WellFormed s) (ht : t < s.nrTasks)
    {call : HostHeap → VirtualMemory → Result (HostHeap × VirtualMemory)}
    (hspec : ∀ owner heap' vm', getLinkedVm s t .vm = .ok owner →
      call s.heap (s.vm owner).memory = .ok (heap', vm') →
      Transfer Buffer.size P s.heap (s.bases owner) heap' vm'.bases ∧
        RegionsInOrder vm'.regions.pmrOps)
    (h : onMemory s t call = .ok s') : Keeps P s s' := by
  obtain ⟨owner, howner, h⟩ := bind_eq_ok.mp h
  obtain ⟨⟨heap', memory'⟩, hcall, h⟩ := bind_eq_ok.mp h
  cases h
  have howns := (hs.getLinkedVm_iff ht).mp howner
  have hshares : (s.vm owner).links.clonedVm = false := hs.owner_shouldGo howns
  exact keeps_setVm (Nat.lt_of_le_of_lt (hs.owner_le howns) ht) rfl rfl
    (fun hcloned => by simp [hshares] at hcloned) (fun _ => rfl) (fun _ => rfl)
    (hspec _ _ _ howner hcall).1 fun _ => (hspec _ _ _ howner hcall).2

theorem chdir_keeps (hs : WellFormed s) (ht : t < s.nrTasks) {path : CString}
    (h : (TaskCall.chdir path).run s t = .ok s') : Keeps P s s' := by
  obtain ⟨owner, howner, h⟩ := bind_eq_ok.mp h
  obtain ⟨cwd, -, h⟩ := bind_eq_ok.mp h
  cases h
  have howns := (hs.getLinkedVm_iff ht).mp howner
  have hshares : (s.vm owner).links.clonedFs = false := hs.owner_shouldGo howns
  exact keeps_setVm (Nat.lt_of_le_of_lt (hs.owner_le howns) ht) rfl rfl (fun _ => rfl)
    (fun hcloned => by simp [hshares] at hcloned) (fun _ => rfl) (.refl _ _) id

theorem file_keeps (hs : WellFormed s) (ht : t < s.nrTasks) {call : FileCall}
    (h : (TaskCall.file call).run s t = .ok s') : Keeps P s s' := by
  obtain ⟨dirsOwner, -, h⟩ := bind_eq_ok.mp h
  obtain ⟨owner, howner, h⟩ := bind_eq_ok.mp h
  obtain ⟨⟨rv, files⟩, -, h⟩ := bind_eq_ok.mp h
  cases h
  have howns := (hs.getLinkedVm_iff ht).mp howner
  have hshares : (s.vm owner).links.clonedFiles = false := hs.owner_shouldGo howns
  exact keeps_setVm (Nat.lt_of_le_of_lt (hs.owner_le howns) ht) rfl rfl (fun _ => rfl)
    (fun _ => rfl) (fun hcloned => by simp [hshares] at hcloned) (.refl _ _) id

/-- The registers of a task are overwritten. -/
theorem keeps_setHart (ht : t < s.nrTasks) (hart : Hart) :
    Keeps P s (s.setVm t { s.vm t with hart }) :=
  keeps_setVm ht rfl rfl (fun _ => rfl) (fun _ => rfl) (fun _ => rfl) (.refl _ _) id

theorem loadTask_keeps {alloc : Allocator} {content : Option (List Byte)}
    {argv envp : List CString} (ht : t < s.nrTasks) (hshares : (s.vm t).links.clonedVm = false)
    (h : loadTask alloc s t content argv envp = .ok s') : Keeps P s s' := by
  obtain ⟨⟨heap₁, hart₁, memory⟩, hprogram, h⟩ := bind_eq_ok.mp h
  obtain ⟨⟨heap₂, hart₂⟩, henv, h⟩ := bind_eq_ok.mp h
  cases h
  exact keeps_setVm ht rfl rfl (fun hcloned => by simp [hshares] at hcloned) (fun _ => rfl)
    (fun _ => rfl) ((programInit_transfer hprogram).trans (envSetup_transfer henv))
    fun horder => programInit_inOrder horder hprogram

/-- The memory of its owner is reclaimed. -/
theorem reclaimTask_of_owner (hshares : (s.vm t).links.clonedVm = false) :
    reclaimTask s t = .ok
      { s.setVm t { s.vm t with memory := (reclaimVirtualMemory s.heap (s.vm t).memory).2 } with
        heap := (reclaimVirtualMemory s.heap (s.vm t).memory).1 } := by
  rw [reclaimTask, hshares]
  rfl

theorem reclaimTask_keeps (ht : t < s.nrTasks) (hshares : (s.vm t).links.clonedVm = false)
    (h : reclaimTask s t = .ok s') : Keeps P s s' := by
  rw [reclaimTask_of_owner hshares] at h
  cases h
  exact keeps_setVm ht rfl rfl (fun hcloned => by simp [hshares] at hcloned) (fun _ => rfl)
    (fun _ => rfl) (reclaimVirtualMemory_transfer _ _) fun _ => regionsInOrder_nil

theorem callExecve_keeps (hs : WellFormed s) (ht : t < s.nrTasks) {args : ExecveArgs}
    {alloc : Allocator} {hostFiles : CString → Option (List Byte)}
    (h : callExecve s t args alloc hostFiles = .ok s') : Keeps P s s' := by
  obtain ⟨envp, -, h⟩ := bind_eq_ok.mp h
  obtain ⟨owner, howner, h⟩ := bind_eq_ok.mp h
  obtain ⟨s₁, hreclaim, h⟩ := bind_eq_ok.mp h
  obtain ⟨hostCpath, -, h⟩ := bind_eq_ok.mp h
  have howns := (hs.getLinkedVm_iff ht).mp howner
  have hshares : (s.vm owner).links.clonedVm = false := hs.owner_shouldGo howns
  have hlt : owner < s.nrTasks := Nat.lt_of_le_of_lt (hs.owner_le howns) ht
  have hk₁ := reclaimTask_keeps (P := P) hlt hshares hreclaim
  have hk₂ := keeps_setHart (P := P) (s := s₁) (t := t) (by rwa [hk₁.nrTasks]) (s₁.vm t).hart.reset
  have hk₁₂ := hk₁.trans hk₂
  refine hk₁₂.trans (loadTask_keeps (by rwa [hk₁₂.nrTasks]) ?_ h)
  rw [hk₁₂.links owner]
  exact hshares

/-- The `realloc` of a call returns memory. -/
def TaskCall.ReallocReturns (s : Forest) (t : TaskId) : TaskCall → Prop
  | .brk _ alloc _ => ∀ owner, getLinkedVm s t .vm = .ok owner →
      alloc.replace s.heap (heapBase (s.vm owner).memory) ≠ none
  | _ => True

/-- Every call but `clone` keeps links, roots and empty copies. -/
theorem TaskCall.run_keeps (hs : WellFormed s) (ht : t < s.nrTasks) {call : TaskCall}
    (hclone : ∀ args alloc answers, call ≠ .clone args alloc answers)
    (h : call.run s t = .ok s') : Keeps (call.ReallocReturns s t) s s' := by
  cases call with
  | clone args alloc answers => exact absurd rfl (hclone args alloc answers)
  | chdir path => exact chdir_keeps hs ht h
  | execve args alloc hostFiles => exact callExecve_keeps hs ht h
  | mmap proposalAddr len prot flags alloc =>
    rw [TaskCall.run] at h
    refine onMemory_keeps hs ht ?_ h
    intro owner heap' vm' howner hcall
    obtain ⟨⟨rv, heap₁, vm₁⟩, hmmap, hcall⟩ := bind_eq_ok.mp hcall
    cases hcall
    exact ⟨doMmap_transfer hmmap, doMmap_inOrder (hs.inOrder owner) hmmap⟩
  | munmap addr len =>
    rw [TaskCall.run] at h
    refine onMemory_keeps hs ht ?_ h
    intro owner heap' vm' howner hcall
    obtain ⟨⟨rv, heap₁, vm₁⟩, hmunmap, hcall⟩ := bind_eq_ok.mp hcall
    cases hcall
    exact ⟨doMunmap_transfer hmunmap, doMunmap_inOrder (hs.inOrder owner) hmunmap⟩
  | brk addr alloc added =>
    rw [TaskCall.run] at h
    refine onMemory_keeps hs ht ?_ h
    intro owner heap' vm' howner hcall
    obtain ⟨⟨rv, heap₁, vm₁⟩, hbrk, hcall⟩ := bind_eq_ok.mp hcall
    cases hcall
    exact ⟨(callBrk_transfer hbrk).mono fun hreturns => hreturns owner howner,
      callBrk_inOrder (hs.inOrder owner) hbrk⟩
  | store address bytes =>
    rw [TaskCall.run] at h
    refine onMemory_keeps hs ht ?_ h
    intro owner heap' vm' howner hcall
    obtain ⟨⟨base, offset⟩, hpointer, hcall⟩ := bind_eq_ok.mp hcall
    obtain ⟨heap₁, hstore, hcall⟩ := bind_eq_ok.mp hcall
    cases hcall
    exact ⟨store_transfer (userWorldPointer_mem hpointer) hstore, hs.inOrder owner⟩
  | file call => exact file_keeps hs ht h
  | instructions registers pc =>
    cases h
    exact keeps_setHart ht _

/-! ## What `clone` does -/

theorem preallocateInt_ok {alloc : Allocator} {heap heap' : HostHeap} {n : Int}
    {dst : HostPointer} (h : preallocateInt alloc heap n = (heap', some dst)) :
    0 ≤ n ∧ heap dst = none ∧
      heap' = Function.update heap dst (some ⟨n.toNat, fun _ => 0⟩) := by
  unfold preallocateInt at h
  split at h
  next => cases h
  next hn =>
    unfold HostHeap.preallocatePhysicalMemory at h
    cases hplace : alloc.place heap with
    | none =>
      rw [hplace] at h
      cases h
    | some p =>
      rw [hplace] at h
      cases h
      exact ⟨not_lt.mp hn, alloc.free heap dst hplace, rfl⟩

/-- The copy of a region has a new buffer, with the bytes of the region. -/
theorem duplicateRegion_ok {alloc : Allocator} {heap heap' : HostHeap} {r r' : PmRegion}
    (hlive : ∀ p, r.hostBase = some p → heap p ≠ none)
    (h : duplicateRegion alloc heap r = .ok (heap', r')) :
    ∃ dst src b b', heap dst = none ∧ r.hostBase = some src ∧ heap src = some b ∧
      r' = { r with hostBase := some dst } ∧ heap' = Function.update heap dst (some b') ∧
      b'.size = (r.addrHigh - r.addrLow).toNat ∧
      ∀ i < (r.addrHigh - r.addrLow).toNat, b'.byte? i = b.byte? i := by
  cases halloc : preallocateInt alloc heap (r.addrHigh - r.addrLow).toInt with
  | mk heap₁ hostBase =>
    rw [duplicateRegion, halloc] at h
    obtain ⟨dst, hdst, h⟩ := bind_eq_ok.mp h
    obtain ⟨src, hsrc, h⟩ := bind_eq_ok.mp h
    obtain ⟨bytes, hload, h⟩ := bind_eq_ok.mp h
    obtain ⟨heap₂, hstore, h⟩ := bind_eq_ok.mp h
    cases h
    rw [require_eq_ok] at hdst
    rw [deref_eq_ok] at hsrc
    subst hdst
    obtain ⟨hn, hfree, rfl⟩ := preallocateInt_ok halloc
    have hne : src ≠ dst := fun heq => hlive src hsrc (heq ▸ hfree)
    have hlen : (r.addrHigh - r.addrLow).toInt.toNat = (r.addrHigh - r.addrLow).toNat := by
      rw [BitVec.toInt_eq_toNat_cond] at hn ⊢
      split at hn
      next hlt => rw [if_pos hlt, Int.toNat_natCast]
      next hge => omega
    rw [hlen] at hload hstore
    rw [HostHeap.load, Function.update_of_ne hne] at hload
    rw [HostHeap.store, Function.update_self] at hstore
    generalize (r.addrHigh - r.addrLow).toNat = n at hload hstore ⊢
    cases hb : heap src with
    | none => exact absurd hb (hlive src hsrc)
    | some b =>
      rw [hb] at hload
      simp only [Nat.zero_add] at hload hstore
      split at hload
      next hsize =>
        cases hload
        rw [if_pos (by simp)] at hstore
        cases hstore
        refine ⟨dst, src, b, _, hfree, hsrc, hb, rfl, Function.update_idem _ _ _, rfl, ?_⟩
        intro i hi
        simp only [Buffer.byte?]
        rw [if_pos hi, if_pos (Nat.lt_of_lt_of_le hi hsize), memcpy, if_pos (by simpa using hi)]
        simp [hi]
      next => cases hload

/-- The copies of regions have the bounds of the regions. -/
theorem duplicateRegions_bounds {alloc : Allocator} {pmrs pmrs' : List PmRegion}
    {heap heap' : HostHeap} (h : duplicateRegions alloc heap pmrs = .ok (heap', pmrs')) :
    pmrs'.map PmRegion.bounds = pmrs.map PmRegion.bounds := by
  induction pmrs generalizing heap pmrs' with
  | nil =>
    cases h
    rfl
  | cons r pmrs ih =>
    obtain ⟨⟨heap₁, r'⟩, hregion, h⟩ := bind_eq_ok.mp h
    obtain ⟨⟨heap₂, pmrs₂⟩, hrest, h⟩ := bind_eq_ok.mp h
    cases h
    obtain ⟨dst, -, hregion⟩ := bind_eq_ok.mp hregion
    obtain ⟨src, -, hregion⟩ := bind_eq_ok.mp hregion
    obtain ⟨bytes, -, hregion⟩ := bind_eq_ok.mp hregion
    obtain ⟨heap₃, -, hregion⟩ := bind_eq_ok.mp hregion
    cases hregion
    rw [List.map_cons, List.map_cons, ih hrest]
    rfl

/-- The regions have live buffers, if they have one. -/
def LiveRegions (heap : HostHeap) (pmrs : List PmRegion) : Prop :=
  ∀ r ∈ pmrs, ∀ p, r.hostBase = some p → heap p ≠ none

/-- Copying regions allocates a new buffer for each, and writes to no other. -/
theorem duplicateRegions_transfer {alloc : Allocator} {pmrs pmrs' : List PmRegion}
    {heap heap' : HostHeap} (hlive : LiveRegions heap pmrs) (own : List (HostPointer × Nat))
    (h : duplicateRegions alloc heap pmrs = .ok (heap', pmrs')) :
    Transfer Buffer.size P heap own heap' (bases pmrs' ++ own) := by
  induction pmrs generalizing heap pmrs' own with
  | nil =>
    cases h
    exact .refl _ own
  | cons r pmrs ih =>
    obtain ⟨⟨heap₁, r'⟩, hregion, h⟩ := bind_eq_ok.mp h
    obtain ⟨⟨heap₂, pmrs₂⟩, hrest, h⟩ := bind_eq_ok.mp h
    cases h
    obtain ⟨dst, src, b, b', hfree, -, -, rfl, rfl, hsize, -⟩ :=
      duplicateRegion_ok (hlive r List.mem_cons_self) hregion
    have hlive₁ : LiveRegions (Function.update heap dst (some b')) pmrs := by
      intro x hx p hp
      have hxp := hlive x (List.mem_cons_of_mem r hx) p hp
      have hne : p ≠ dst := fun heq => hxp (heq ▸ hfree)
      rwa [Function.update_of_ne hne]
    refine ((Transfer.allocate b' hfree).trans (ih hlive₁ _ hrest)).trans (.perm ?_)
    rw [bases_cons, hsize]
    exact List.perm_middle

/-- The copy of regions looks like the regions. -/
theorem duplicateRegions_view {alloc : Allocator} {pmrs pmrs' : List PmRegion}
    {heap heap' : HostHeap} (hlive : LiveRegions heap pmrs)
    (h : duplicateRegions alloc heap pmrs = .ok (heap', pmrs')) :
    pmrs'.map (PmRegion.view heap') = pmrs.map (PmRegion.view heap) := by
  induction pmrs generalizing heap pmrs' with
  | nil =>
    cases h
    rfl
  | cons r pmrs ih =>
    obtain ⟨⟨heap₁, r'⟩, hregion, h⟩ := bind_eq_ok.mp h
    obtain ⟨⟨heap₂, pmrs₂⟩, hrest, h⟩ := bind_eq_ok.mp h
    cases h
    obtain ⟨dst, src, b, b', hfree, hsrc, hb, rfl, rfl, -, hbytes⟩ :=
      duplicateRegion_ok (hlive r List.mem_cons_self) hregion
    have hsame : ∀ x ∈ pmrs, ∀ p, x.hostBase = some p →
        Function.update heap dst (some b') p = heap p := by
      intro x hx p hp
      have hxp := hlive x (List.mem_cons_of_mem r hx) p hp
      have hne : p ≠ dst := fun heq => hxp (heq ▸ hfree)
      exact Function.update_of_ne hne _ _
    have hlive₁ : LiveRegions (Function.update heap dst (some b')) pmrs := by
      intro x hx p hp
      rw [hsame x hx p hp]
      exact hlive x (List.mem_cons_of_mem r hx) p hp
    -- The copies that follow leave the new buffer as it is.
    have hdst : heap' dst = some b' := by
      have htransfer := duplicateRegions_transfer (P := True) hlive₁ [] hrest
      have hframe := htransfer.frame dst List.not_mem_nil
      rw [Function.update_self] at hframe
      exact hframe (Option.some_ne_none b')
    rw [List.map_cons, List.map_cons, ih hlive₁ hrest]
    congr 1
    · simp only [PmRegion.view, hsrc, Option.bind_some, hdst, hb]
      congr 1
      funext i
      split
      next hi => exact hbytes i hi
      next => rfl
    · exact List.map_congr_left fun x hx => view_congr (hsame x hx)

/-! ## Clone -/

/-- What `clone_task` does to the forest. -/
structure Cloned (s : Forest) (t : TaskId) (args : CloneArgs) (alloc : Allocator)
    (answers : Fin maxFilesNr → HostAnswer) (s' : Forest) : Prop where
  nrTasks : s'.nrTasks = s.nrTasks + 1
  others : ∀ u, u ≠ s.nrTasks → ∃ refCount, s'.vm u = { s.vm u with refCount }
  unrelated : ∀ u, u ≠ s.nrTasks → u ≠ t → s'.vm u = s.vm u
  links : (s'.vm s.nrTasks).links = ⟨some t, hasFlag args.flags cloneVm,
    hasFlag args.flags cloneFiles, hasFlag args.flags cloneFs⟩
  memory_shared : hasFlag args.flags cloneVm = true →
    s'.heap = s.heap ∧ (s'.vm s.nrTasks).memory = .empty
  memory_copied : hasFlag args.flags cloneVm = false →
    duplicateVirtualMemory alloc s.heap (s.vm t).memory =
      .ok (s'.heap, (s'.vm s.nrTasks).memory)
  dirs : (s'.vm s.nrTasks).dirs =
    if hasFlag args.flags cloneFs then .empty else (s.vm t).dirs
  files_shared : hasFlag args.flags cloneFiles = true → (s'.vm s.nrTasks).files = .zero
  files_copied : hasFlag args.flags cloneFiles = false →
    duplicateFiles (s.vm t).files answers = .ok (s'.vm s.nrTasks).files

theorem taskVmInit_ok {alloc : Allocator} {heap heap' : HostHeap}
    {current current' child child' : Vm} {flags : Word}
    (hlinks : child.links.clonedVm = false) (hmemory : child.memory = .empty)
    (h : taskVmInit alloc heap current child flags = .ok (heap', current', child')) :
    (∃ refCount, current' = { current with refCount }) ∧
    ∃ memory, child' = { child with
        memory, links := { child.links with clonedVm := hasFlag flags cloneVm } } ∧
      (hasFlag flags cloneVm = true → heap' = heap ∧ memory = .empty) ∧
      (hasFlag flags cloneVm = false →
        duplicateVirtualMemory alloc heap current.memory = .ok (heap', memory)) := by
  unfold taskVmInit at h
  cases hflag : hasFlag flags cloneVm with
  | true =>
    rw [hflag, if_pos rfl] at h
    cases h
    exact ⟨⟨_, rfl⟩, _, by rw [← hmemory], fun _ => ⟨rfl, rfl⟩, by simp⟩
  | false =>
    rw [hflag, if_neg (by simp)] at h
    obtain ⟨⟨heap₁, memory⟩, hcopy, h⟩ := bind_eq_ok.mp h
    cases h
    exact ⟨⟨_, rfl⟩, memory, by rw [← hlinks], by simp, fun _ => hcopy⟩

theorem taskFilesInit_ok {current current' child child' : Vm} {flags : Word}
    {answers : Fin maxFilesNr → HostAnswer} (hlinks : child.links.clonedFiles = false)
    (hfiles : child.files = .zero)
    (h : taskFilesInit current child flags answers = .ok (current', child')) :
    (∃ refCount, current' = { current with refCount }) ∧
    ∃ files, child' = { child with
        files, links := { child.links with clonedFiles := hasFlag flags cloneFiles } } ∧
      (hasFlag flags cloneFiles = true → files = .zero) ∧
      (hasFlag flags cloneFiles = false → duplicateFiles current.files answers = .ok files) := by
  unfold taskFilesInit at h
  cases hflag : hasFlag flags cloneFiles with
  | true =>
    rw [hflag, if_pos rfl] at h
    cases h
    exact ⟨⟨_, rfl⟩, _, by rw [← hfiles], fun _ => rfl, by simp⟩
  | false =>
    rw [hflag, if_neg (by simp)] at h
    obtain ⟨files, hcopy, h⟩ := bind_eq_ok.mp h
    cases h
    exact ⟨⟨_, rfl⟩, files, by rw [← hlinks], by simp, fun _ => hcopy⟩

theorem taskFsInit_eq {current child : Vm} {flags : Word} {rooted : Vm × Vm}
    (hlinks : child.links.clonedFs = false) (hdirs : child.dirs = .empty)
    (h : taskFsInit current child flags = rooted) :
    (∃ refCount, rooted.1 = { current with refCount }) ∧
    rooted.2 = { child with
      dirs := if hasFlag flags cloneFs then .empty else current.dirs
      links := { child.links with clonedFs := hasFlag flags cloneFs } } := by
  subst h
  unfold taskFsInit
  cases hflag : hasFlag flags cloneFs with
  | true => exact ⟨⟨_, rfl⟩, by rw [if_pos rfl, if_pos rfl, ← hdirs]⟩
  | false => exact ⟨⟨_, rfl⟩, by rw [if_neg (by simp), if_neg (by simp), ← hlinks]⟩

theorem taskThreadsInit_ok {child child' : Vm} {args : CloneArgs}
    (h : taskThreadsInit child args = .ok child') :
    ∃ hart setChildTid, child' = { child with hart, setChildTid } ∧
      (hasFlag args.flags cloneThread = true → args.childStack ≠ 0) ∧
      hart = if hasFlag args.flags cloneThread then child.hart.setRegister sp args.childStack
        else child.hart := by
  have hset : ∃ setChildTid, (if hasFlag args.flags cloneChildSettid then
      { child with setChildTid := args.ctidAddr } else child) = { child with setChildTid } := by
    split
    next => exact ⟨_, rfl⟩
    next => exact ⟨_, rfl⟩
  obtain ⟨setChildTid, hset⟩ := hset
  unfold taskThreadsInit at h
  rw [hset] at h
  simp only at h
  split at h
  next hthread =>
    obtain ⟨u, hstack, h⟩ := bind_eq_ok.mp h
    cases h
    exact ⟨_, _, rfl, fun _ => check_eq_ok.mp hstack, (if_pos hthread).symm⟩
  next hthread =>
    cases h
    exact ⟨_, _, rfl, fun h => absurd h hthread, (if_neg hthread).symm⟩

theorem cloneTask_ok {args : CloneArgs} {alloc : Allocator}
    {answers : Fin maxFilesNr → HostAnswer} {pid : Word}
    (h : s.cloneTask t args alloc answers = .ok (pid, s')) :
    Cloned s t args alloc answers s' := by
  obtain ⟨⟨heap, current₁, child₁⟩, hvm, h⟩ := bind_eq_ok.mp h
  obtain ⟨⟨current₃, child₃⟩, hfiles, h⟩ := bind_eq_ok.mp h
  obtain ⟨child₄, hthreads, h⟩ := bind_eq_ok.mp h
  cases h
  obtain ⟨⟨n₁, rfl⟩, memory, rfl, hshared, hcopied⟩ := taskVmInit_ok rfl rfl hvm
  generalize hrooted : taskFsInit _ _ args.flags = rooted at hfiles
  obtain ⟨⟨n₂, hcurrent₂⟩, hchild₂⟩ := taskFsInit_eq rfl rfl hrooted
  rw [hcurrent₂, hchild₂] at hfiles
  obtain ⟨⟨n₃, rfl⟩, files, rfl, hfilesShared, hfilesCopied⟩ := taskFilesInit_ok rfl rfl hfiles
  obtain ⟨hart, setChildTid, rfl, -⟩ := taskThreadsInit_ok hthreads
  refine
    { nrTasks := rfl
      others := fun u hu => ?_
      unrelated := fun u hu hut =>
        (Function.update_of_ne hu _ _).trans (Function.update_of_ne hut _ _)
      links := ?_
      memory_shared := fun hflag => ?_
      memory_copied := fun hflag => ?_
      dirs := ?_
      files_shared := fun hflag => ?_
      files_copied := fun hflag => ?_ }
  · simp only [Function.update_of_ne hu]
    by_cases heq : u = t
    · rw [heq, Function.update_self]
      exact ⟨_, rfl⟩
    · rw [Function.update_of_ne heq]
      exact ⟨_, rfl⟩
  all_goals simp only [Function.update_self]
  · rfl
  · exact hshared hflag
  · exact hcopied hflag
  · rfl
  · exact hfilesShared hflag
  · exact hfilesCopied hflag

/-- The hart of a child, as `task_cpu_init` leaves it. -/
def Hart.cloned (hart : Hart) : Hart :=
  { hart.setRegister a0 0 with pc := hart.pc + 4, hartId := 0 }

/-- The child has the next pid, which is the one that its parent gets, and starts behind the
call with a copy of the registers of its parent.  A thread has a stack of its own. -/
theorem cloneTask_child {args : CloneArgs} {alloc : Allocator}
    {answers : Fin maxFilesNr → HostAnswer} {pid : Word}
    (h : s.cloneTask t args alloc answers = .ok (pid, s')) :
    s'.gpidCounter = s.gpidCounter + 1 ∧ (s'.vm s.nrTasks).pid = s.gpidCounter ∧
    (s'.vm s.nrTasks).tgid =
      (if hasFlag args.flags cloneThread then (s.vm t).pid else s.gpidCounter) ∧
    pid = s.gpidCounter ∧
    (hasFlag args.flags cloneThread = true → args.childStack ≠ 0) ∧
    (s'.vm s.nrTasks).hart =
      if hasFlag args.flags cloneThread then
        (s.vm t).hart.cloned.setRegister sp args.childStack
      else (s.vm t).hart.cloned := by
  obtain ⟨⟨heap, current₁, child₁⟩, hvm, h⟩ := bind_eq_ok.mp h
  obtain ⟨⟨current₃, child₃⟩, hfiles, h⟩ := bind_eq_ok.mp h
  obtain ⟨child₄, hthreads, h⟩ := bind_eq_ok.mp h
  cases h
  obtain ⟨-, memory, rfl, -⟩ := taskVmInit_ok rfl rfl hvm
  generalize hrooted : taskFsInit _ _ args.flags = rooted at hfiles
  obtain ⟨-, hchild₂⟩ := taskFsInit_eq rfl rfl hrooted
  rw [hchild₂] at hfiles
  obtain ⟨-, files, rfl, -⟩ := taskFilesInit_ok rfl rfl hfiles
  obtain ⟨hart, setChildTid, rfl, hstack, rfl⟩ := taskThreadsInit_ok hthreads
  simp only [Function.update_self]
  exact ⟨trivial, rfl, rfl, rfl, hstack, rfl⟩

theorem WellFormed.liveRegions (h : WellFormed s) (t : TaskId) :
    LiveRegions s.heap (s.vm t).memory.regions.pmrOps := by
  intro r hr p hp
  exact (h.isolated.holds t).ne_none (mem_pointers_bases.mpr ⟨r, hr, hp⟩)

section Cloned

variable {args : CloneArgs} {alloc : Allocator} {answers : Fin maxFilesNr → HostAnswer}

/-- The child owns new buffers, and those of the others stay as they are. -/
theorem Cloned.transfer (hs : WellFormed s) (hc : Cloned s t args alloc answers s') :
    Transfer Buffer.size P s.heap [] s'.heap (s'.bases s.nrTasks) := by
  cases hflag : hasFlag args.flags cloneVm with
  | true =>
    obtain ⟨hheap, hmemory⟩ := hc.memory_shared hflag
    rw [hheap, Forest.bases, hmemory]
    exact .refl _ _
  | false =>
    obtain ⟨⟨heap, pmrOps⟩, hcopy, h⟩ := bind_eq_ok.mp (hc.memory_copied hflag)
    simp only [pure_eq_ok, Except.ok.injEq, Prod.mk.injEq] at h
    obtain ⟨rfl, hmemory⟩ := h
    have htransfer := duplicateRegions_transfer (P := P) (hs.liveRegions t) [] hcopy
    rw [List.append_nil] at htransfer
    rw [Forest.bases, ← hmemory]
    exact htransfer

/-- The regions of the child are in order, as those of its parent. -/
theorem Cloned.inOrder (hs : WellFormed s) (hc : Cloned s t args alloc answers s') :
    RegionsInOrder (s'.vm s.nrTasks).memory.regions.pmrOps := by
  cases hflag : hasFlag args.flags cloneVm with
  | true =>
    rw [(hc.memory_shared hflag).2]
    exact regionsInOrder_nil
  | false =>
    obtain ⟨⟨heap, pmrOps⟩, hcopy, h⟩ := bind_eq_ok.mp (hc.memory_copied hflag)
    simp only [pure_eq_ok, Except.ok.injEq, Prod.mk.injEq] at h
    rw [← h.2]
    exact (hs.inOrder t).of_bounds (duplicateRegions_bounds hcopy)

/-- The others keep their buffers. -/
theorem Cloned.bases (hc : Cloned s t args alloc answers s') :
    s'.bases = Function.update s.bases s.nrTasks (s'.bases s.nrTasks) := by
  funext u
  by_cases hu : u = s.nrTasks
  · rw [hu, Function.update_self]
  · obtain ⟨n, hvm⟩ := hc.others u hu
    rw [Function.update_of_ne hu, Forest.bases, hvm]
    rfl

theorem WellFormed.cloned (hs : WellFormed s) (ht : t < s.nrTasks)
    (hc : Cloned s t args alloc answers s') : WellFormed s' := by
  have hnone : s.bases s.nrTasks = [] := by
    rw [Forest.bases, hs.beyond s.nrTasks (Nat.le_refl _)]
    rfl
  have htransfer := hc.transfer (P := True) hs
  refine
    { parent_lt := fun u p hp => ?_
      parent_of_shared := fun u hint hgo => ?_
      beyond := fun u hu => ?_
      memory_of_shared := fun u hu => ?_
      dirs_of_shared := fun u hu => ?_
      files_of_shared := fun u hu => ?_
      root_length := fun u => ?_
      isolated := ?_
      finite := htransfer.finite hs.finite
      inOrder := fun u => ?_ }
  · by_cases hchild : u = s.nrTasks
    · rw [hchild, hc.links] at hp
      obtain rfl : t = p := Option.some.inj hp
      rwa [hchild]
    · obtain ⟨n, hvm⟩ := hc.others u hchild
      rw [hvm] at hp
      exact hs.parent_lt u p hp
  · by_cases hchild : u = s.nrTasks
    · rw [hchild, hc.links]
      exact ⟨t, rfl⟩
    · obtain ⟨n, hvm⟩ := hc.others u hchild
      rw [hvm] at hgo ⊢
      exact hs.parent_of_shared u hint hgo
  · rw [hc.nrTasks] at hu
    rw [hc.unrelated u (Nat.ne_of_gt hu) (Nat.ne_of_gt (Nat.lt_trans ht hu))]
    exact hs.beyond u (Nat.le_of_lt hu)
  · by_cases hchild : u = s.nrTasks
    · rw [hchild, hc.links] at hu
      rw [hchild]
      exact (hc.memory_shared hu).2
    · obtain ⟨n, hvm⟩ := hc.others u hchild
      rw [hvm] at hu ⊢
      exact hs.memory_of_shared u hu
  · by_cases hchild : u = s.nrTasks
    · rw [hchild, hc.links] at hu
      rw [hchild, hc.dirs]
      exact if_pos hu
    · obtain ⟨n, hvm⟩ := hc.others u hchild
      rw [hvm] at hu ⊢
      exact hs.dirs_of_shared u hu
  · by_cases hchild : u = s.nrTasks
    · rw [hchild, hc.links] at hu
      rw [hchild]
      exact hc.files_shared hu
    · obtain ⟨n, hvm⟩ := hc.others u hchild
      rw [hvm] at hu ⊢
      exact hs.files_of_shared u hu
  · by_cases hchild : u = s.nrTasks
    · rw [hchild, hc.dirs]
      split
      next => exact (by decide : CString.empty.length < nameSize)
      next => exact hs.root_length t
    · obtain ⟨n, hvm⟩ := hc.others u hchild
      rw [hvm]
      exact hs.root_length u
  · rw [hc.bases]
    exact hs.isolated.transfer (by rwa [hnone])
  · by_cases hchild : u = s.nrTasks
    · rw [hchild]
      exact hc.inOrder hs
    · obtain ⟨n, hvm⟩ := hc.others u hchild
      rw [hvm]
      exact hs.inOrder u

end Cloned

/-! ## Start-up -/

/-- The forest before `program_init`. -/
theorem wellFormed_zero : WellFormed ⟨fun _ => .zero, 1, 1, fun _ => none⟩ where
  parent_lt _ _ hp := by cases hp
  parent_of_shared _ hint hgo := by cases hint <;> cases hgo
  beyond _ _ := rfl
  memory_of_shared _ _ := rfl
  dirs_of_shared _ _ := rfl
  files_of_shared _ _ := rfl
  root_length _ := (by decide : CString.empty.length < nameSize)
  isolated := ⟨fun _ => ⟨List.nodup_nil, fun _ hp => by cases hp⟩, fun _ _ _ _ hp => by cases hp⟩
  finite := by simp
  inOrder _ := regionsInOrder_nil

/-- The directories and files of a task that owns them are set up. -/
theorem WellFormed.setUp (hs : WellFormed s) (ht : t < s.nrTasks) {vm' : Vm} {n : Word}
    (hlinks : vm'.links = (s.vm t).links) (hmemory : vm'.memory = (s.vm t).memory)
    (hfs : (s.vm t).links.clonedFs = false) (hfiles : (s.vm t).links.clonedFiles = false)
    (hroot : vm'.dirs.root.length < nameSize) :
    WellFormed { s.setVm t vm' with gpidCounter := n } := by
  have hself : Function.update s.vm t vm' t = vm' := Function.update_self _ _ _
  have hother : ∀ u, u ≠ t → Function.update s.vm t vm' u = s.vm u :=
    fun u hne => Function.update_of_ne hne _ _
  have hsame : ∀ u, (Function.update s.vm t vm' u).links = (s.vm u).links ∧
      (Function.update s.vm t vm' u).memory = (s.vm u).memory := by
    intro u
    by_cases hne : u = t
    · rw [hne, hself]
      exact ⟨hlinks, hmemory⟩
    · rw [hother u hne]
      exact ⟨rfl, rfl⟩
  have hbases : Forest.bases { s.setVm t vm' with gpidCounter := n } = s.bases := by
    funext u
    exact congrArg VirtualMemory.bases (hsame u).2
  refine
    { parent_lt := fun u p hp => hs.parent_lt u p ((hsame u).1 ▸ hp)
      parent_of_shared := fun u hint hgo => ?_
      beyond := fun u hu => ?_
      memory_of_shared := fun u hu => ?_
      dirs_of_shared := fun u hu => ?_
      files_of_shared := fun u hu => ?_
      root_length := fun u => ?_
      isolated := hbases ▸ hs.isolated
      finite := hs.finite
      inOrder := fun u => (hsame u).2 ▸ hs.inOrder u }
  all_goals simp only [Forest.setVm] at *
  · rw [(hsame u).1] at hgo ⊢
    exact hs.parent_of_shared u hint hgo
  · rw [hother u (Nat.ne_of_gt (Nat.lt_of_lt_of_le ht hu))]
    exact hs.beyond u hu
  · rw [(hsame u).1] at hu
    rw [(hsame u).2]
    exact hs.memory_of_shared u hu
  · rw [(hsame u).1] at hu
    have hne : u ≠ t := fun heq => by simp [heq, hfs] at hu
    rw [hother u hne]
    exact hs.dirs_of_shared u hu
  · rw [(hsame u).1] at hu
    have hne : u ≠ t := fun heq => by simp [heq, hfiles] at hu
    rw [hother u hne]
    exact hs.files_of_shared u hu
  · by_cases hne : u = t
    · rw [hne, hself]
      exact hroot
    · rw [hother u hne]
      exact hs.root_length u

/-- The initial task owns everything, and its root is `ROOT`. -/
theorem applicationSandboxInit_ok {boot : Boot} {alloc : Allocator}
    (h : applicationSandboxInit boot alloc = .ok s) :
    WellFormed s ∧ s.nrTasks = 1 ∧ boot.root = some (s.vm 0).dirs.root ∧
      (s.vm 0).links = ⟨none, false, false, false⟩ := by
  obtain ⟨s₁, hload, h⟩ := bind_eq_ok.mp h
  obtain ⟨root, hroot, h⟩ := bind_eq_ok.mp h
  obtain ⟨name, hname, h⟩ := bind_eq_ok.mp h
  obtain ⟨files, -, h⟩ := bind_eq_ok.mp h
  cases h
  rw [require_eq_ok] at hroot
  obtain ⟨hlength, rfl⟩ := copyName_eq_ok.mp hname
  have hk := loadTask_keeps (P := True) (by decide : 0 < 1) rfl hload
  have hlinks : (s₁.vm 0).links = ⟨none, false, false, false⟩ := hk.links 0
  have hnr : s₁.nrTasks = 1 := hk.nrTasks
  refine ⟨(wellFormed_zero.keeps hk).setUp (by rw [hnr]; decide) rfl rfl ?_ ?_ hlength, hnr, ?_, ?_⟩
  · rw [hlinks]
  · rw [hlinks]
  · simpa only [Forest.setVm, Function.update_self] using hroot
  · simpa only [Forest.setVm, Function.update_self] using hlinks

/-- A call is a clone, or it keeps links, roots and empty copies. -/
theorem TaskCall.run_cases (hs : WellFormed s) (ht : t < s.nrTasks) {call : TaskCall}
    (h : call.run s t = .ok s') :
    (∃ args alloc answers, call = .clone args alloc answers ∧
      Cloned s t args alloc answers s') ∨ Keeps (call.ReallocReturns s t) s s' := by
  by_cases hclone : ∃ args alloc answers, call = .clone args alloc answers
  · obtain ⟨args, alloc, answers, rfl⟩ := hclone
    obtain ⟨⟨pid, s₁⟩, hclone, h⟩ := bind_eq_ok.mp h
    cases h
    exact Or.inl ⟨args, alloc, answers, rfl, cloneTask_ok hclone⟩
  · refine Or.inr (TaskCall.run_keeps hs ht ?_ h)
    exact fun args alloc answers heq => hclone ⟨args, alloc, answers, heq⟩

theorem WellFormed.run (hs : WellFormed s) (ht : t < s.nrTasks) {call : TaskCall}
    (h : call.run s t = .ok s') : WellFormed s' := by
  rcases TaskCall.run_cases hs ht h with ⟨args, alloc, answers, rfl, hc⟩ | hk
  · exact hs.cloned ht hc
  · exact hs.keeps hk

/-- What holds in every reachable forest. -/
theorem wellFormed_of_reachable {root : CString} (h : (forestRuns root).Reachable s) :
    WellFormed s := by
  refine h.invariant ?_ ?_
  · rintro s ⟨boot, alloc, -, hboot⟩
    exact (applicationSandboxInit_ok hboot).1
  · rintro s ⟨t, call⟩ s' hs ⟨ht, hrun⟩
    exact hs.run ht hrun

end Hyrule
