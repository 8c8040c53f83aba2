import Hyrule.Task.Linkage

/-!
# What `execve` does

`call_execve` reclaims and loads the memory of the owner that `get_linked_vm`
finds, and sets the stack pointer and the entry point on the owner's hart.  It
resets the registers of the caller's hart.  The two are one hart for a task that
owns its memory.  A task that shares its memory is left with zeroed registers, and
the owner jumps into the new program in its place.  The memory changes for all the
tasks that share it.

`Executed` says what a call does, and `execve_onlyCaller_iff` for which tasks the
calls affect nobody else.

The old memory is gone before the new program is looked at, and a program that
cannot be opened or has no valid header fails an assertion.  So a call on such a
program ends the whole process (`callExecve_bad_program`).
-/

namespace Hyrule

open Lib Lib.Result

variable {root : CString} {s s' : Forest} {t u owner : TaskId} {args : ExecveArgs}
  {alloc : Allocator} {hostFiles : CString → Option (List Byte)}

/-! ## What a call does -/

/-- The host path of the program that a call loads. -/
def Forest.execvePath (s : Forest) (t : TaskId) (filename : CString) : Result CString := do
  let owner ← getLinkedVm s t .vm
  execveHostPath (s.vm owner).dirs filename

/-- The content of the program that a call loads. -/
def Forest.Loads (s : Forest) (t : TaskId) (filename : CString)
    (hostFiles : CString → Option (List Byte)) (content : List Byte) : Prop :=
  ∃ hostCpath, s.execvePath t filename = .ok hostCpath ∧ hostFiles hostCpath = some content

/-- The hart that `program_init` and `env_setup` leave. -/
structure Hart.Starts (hart : Hart) (content : List Byte) (argv envp : List CString) : Prop where
  pc : hart.pc = (programHeader content).entry
  sp : hart.registers sp = envStackPointer initialStackTop argv envp

/-- The memory is that of a program that has been loaded into an empty one. -/
def VirtualMemory.LoadedFrom (memory : VirtualMemory) (content : List Byte) : Prop :=
  ∃ alloc heap hart stale heap' hart',
    programInit alloc heap hart ⟨⟨[], stale⟩, none, none⟩ (some content) =
      .ok (heap', hart', memory)

/-- What a call does to the forest: the owner's hart starts, the caller's is reset, and
only the buffers of the owner change. -/
structure Executed (s : Forest) (t owner : TaskId) (args : ExecveArgs)
    (hostFiles : CString → Option (List Byte)) (s' : Forest) : Prop where
  keeps : Keeps True s s'
  others : ∀ u, u ≠ owner → u ≠ t → s'.vm u = s.vm u
  caller : t ≠ owner → s'.vm t = { s.vm t with hart := (s.vm t).hart.reset }
  starts : ∃ content, s.Loads t args.filename hostFiles content ∧
    (s'.vm owner).hart.Starts content (args.argv.take (maxNrArgv - 1)) args.envp ∧
    (s'.vm owner).memory.LoadedFrom content
  transfer : Transfer Buffer.size True s.heap (s.bases owner) s'.heap (s'.bases owner)

theorem loadTask_ok {content : Option (List Byte)} {argv envp : List CString}
    (h : loadTask alloc s t content argv envp = .ok s') :
    (∀ u, u ≠ t → s'.vm u = s.vm u) ∧
      (∃ bytes, content = some bytes ∧ (s'.vm t).hart.Starts bytes argv envp ∧
        ∃ heap' hart', programInit alloc s.heap (s.vm t).hart (s.vm t).memory (some bytes) =
          .ok (heap', hart', (s'.vm t).memory)) ∧
      Transfer Buffer.size True s.heap (s.bases t) s'.heap (s'.bases t) := by
  obtain ⟨⟨heap₁, hart₁, memory⟩, hprogram, h⟩ := bind_eq_ok.mp h
  obtain ⟨⟨heap₂, hart₂⟩, henv, h⟩ := bind_eq_ok.mp h
  cases h
  obtain ⟨bytes, rfl, rfl⟩ := programInit_hart hprogram
  obtain rfl := envSetup_hart henv
  refine ⟨fun u hu => Function.update_of_ne hu _ _, ⟨bytes, rfl, ?_, ?_⟩, ?_⟩
  · simp only [Forest.setVm, Function.update_self]
    refine ⟨rfl, (Hart.setRegister_self _ _ _).trans ?_⟩
    rw [Hart.setRegister_self]
  · simp only [Forest.setVm, Function.update_self]
    exact ⟨_, _, hprogram⟩
  · simp only [Forest.bases, Forest.setVm, Function.update_self]
    exact (programInit_transfer hprogram).trans (envSetup_transfer henv)

theorem hostEnvp_ok {envp envp' : List CString} (h : hostEnvp envp = .ok envp') : envp' = envp := by
  unfold hostEnvp at h
  split at h
  next =>
    cases h
    rfl
  next => cases h

/-- What `call_execve` does. -/
theorem callExecve_ok (hs : WellFormed s) (ht : t < s.nrTasks) (howner : s.Owns .vm t owner)
    (h : callExecve s t args alloc hostFiles = .ok s') :
    Executed s t owner args hostFiles s' := by
  have hkeeps := callExecve_keeps (P := True) hs ht h
  have hlinked := (hs.getLinkedVm_iff ht).mpr howner
  have hshares : (s.vm owner).links.clonedVm = false := hs.owner_shouldGo howner
  obtain ⟨envp, henvp, h⟩ := bind_eq_ok.mp h
  obtain ⟨owner', howner', h⟩ := bind_eq_ok.mp h
  obtain rfl : owner' = owner := Except.ok.inj (howner'.symm.trans hlinked)
  rw [reclaimTask_of_owner hshares, ok_bind] at h
  obtain ⟨hostCpath, hpath, h⟩ := bind_eq_ok.mp h
  simp only [Forest.setVm, Function.update_self] at hpath h
  obtain ⟨hothers, ⟨bytes, hcontent, hstarts, heap', hart', hprogram⟩, htransfer⟩ := loadTask_ok h
  rw [hostEnvp_ok henvp] at hstarts
  have hloaded : (s'.vm owner').memory.LoadedFrom bytes := by
    by_cases heq : owner' = t
    · subst heq
      simp only [Function.update_self] at hprogram
      exact ⟨_, _, _, _, _, _, hprogram⟩
    · simp only [Function.update_of_ne heq, Function.update_self] at hprogram
      exact ⟨_, _, _, _, _, _, hprogram⟩
  refine ⟨hkeeps, fun u hu hut => ?_, fun hne => ?_, ⟨bytes, ?_, hstarts, hloaded⟩, ?_⟩
  · rw [hothers u hu]
    simp only [Function.update_of_ne hut, Function.update_of_ne hu]
  · rw [hothers t hne]
    simp only [Function.update_self, Function.update_of_ne hne]
  · refine ⟨hostCpath, ?_, hcontent⟩
    rw [Forest.execvePath, hlinked, ok_bind]
    exact hpath
  · have hreclaim := reclaimVirtualMemory_transfer (P := True) s.heap (s.vm owner').memory
    refine Transfer.trans ?_ htransfer
    by_cases heq : owner' = t
    · subst heq
      simp only [Forest.bases, Function.update_self]
      exact hreclaim
    · simp only [Forest.bases, Function.update_of_ne heq, Function.update_self]
      exact hreclaim

/-! ## Calls of a task that shares its memory with nobody -/

/-- The program `"/x"` has a host path in every task. -/
theorem execveHostPath_slashX {dirs : Directories} (hroot : dirs.root.length < nameSize) :
    ∃ hostCpath, execveHostPath dirs slashX = .ok hostCpath := by
  have hguest : chdirPath dirs.cwd slashX = .ok slashX := by
    have hrelative : slashX.isRelative = false := by decide
    rw [chdirPath, hrelative, if_neg (by simp)]
    decide
  have hlength : slashX.bytes.length = 2 := rfl
  have hslash : slashString.bytes.length = 1 := rfl
  unfold CString.length nameSize at hroot
  have hformat : formatPath dirs.root slashX =
      .ok (.ofBuffer (dirs.root.bytes ++ slashString.bytes ++ slashX.bytes)) := by
    rw [formatPath, appendString_eq [] _ (by decide), if_pos (by simp [maxPath]; omega), ok_bind,
      appendString_eq _ _ (by simp [maxPath]; omega),
      if_pos (by simp [hslash, maxPath]; omega), ok_bind,
      appendString_eq _ _ (by simp [hslash, maxPath]; omega),
      if_pos (by simp [hslash, hlength, maxPath]; omega)]
    rfl
  have hfits : (CString.ofBuffer (dirs.root.bytes ++ slashString.bytes ++
      slashX.bytes)).bytes.length + 2 ≤ maxPath := by
    have hprefix := (List.takeWhile_sublist (fun b : Byte => decide (b ≠ nul))
      (l := dirs.root.bytes ++ slashString.bytes ++ slashX.bytes)).length_le
    simp only [List.length_append, hslash, hlength] at hprefix
    show (List.takeWhile _ _).length + 2 ≤ maxPath
    unfold maxPath
    omega
  obtain ⟨dst, hdst, -⟩ := canonicalizePathName_eq hfits
  exact ⟨dst, by rw [execveHostPath, hguest, ok_bind, hformat, ok_bind, hdst]⟩

/-- The allocator with a single place. -/
def Allocator.only (p : HostPointer) : Allocator where
  place heap := if (heap p).isNone then some p else none
  free heap q h := by
    split at h
    next hnone =>
      obtain rfl := Option.some.inj h
      simpa using hnone
    next => cases h

/-- The program cannot be opened, is shorter than a header, or its header is not valid. -/
def BadProgram (content : Option (List Byte)) : Prop :=
  ∀ bytes, content = some bytes →
    bytes.length < elfHeaderSize ∨ (programHeader bytes).isValid = false

/-- `call_execve` with its return value. -/
def callExecveReturn (s : Forest) (t : TaskId) (args : ExecveArgs) (alloc : Allocator)
    (hostFiles : CString → Option (List Byte)) : Result (Word × Forest) := do
  return (0, ← callExecve s t args alloc hostFiles)

/-- A call returns a negative error and leaves its caller as it was. -/
def FailsHarmlessly (s : Forest) (t : TaskId) (outcome : Result (Word × Forest)) : Prop :=
  ∃ rv s', outcome = .ok (rv, s') ∧ rv.toInt < 0 ∧ s'.usedMemory t = s.usedMemory t ∧
    (s'.vm t).hart = (s.vm t).hart

/-- `elf_header` returns no header of a bad program. -/
theorem elfHeader_bad {bytes : List Byte}
    (h : bytes.length < elfHeaderSize ∨ (programHeader bytes).isValid = false) :
    ∃ file, elfHeader ⟨bytes, 0⟩ = .ok (none, file) := by
  have hread : elfRead ⟨bytes, 0⟩ (some elfHeaderSize) 0 elfHeaderSize =
      .ok ((bytes.take elfHeaderSize).length = elfHeaderSize, bytes.take elfHeaderSize,
        ⟨bytes, 0 + (bytes.take elfHeaderSize).length⟩) := by
    have hfits : (bytes.take elfHeaderSize).length ≤ elfHeaderSize := List.length_take_le _ _
    rw [elfRead, if_neg (by decide)]
    exact if_pos hfits
  rw [elfHeader, hread, ok_bind]
  refine ⟨_, congrArg Except.ok (Prod.ext (if_neg ?_) rfl)⟩
  rintro ⟨hlength, hvalid⟩
  rcases h with hshort | hinvalid
  · simp only [decide_eq_true_eq, List.length_take] at hlength
    omega
  · rw [programHeader] at hinvalid
    rw [hinvalid] at hvalid
    cases hvalid

theorem programInit_bad {heap : HostHeap} {hart : Hart} {memory : VirtualMemory}
    {content : Option (List Byte)} (h : BadProgram content) :
    programInit alloc heap hart memory content = .error .assertion := by
  cases content with
  | none => rfl
  | some bytes =>
    obtain ⟨file, hheader⟩ := elfHeader_bad (h bytes rfl)
    rw [programInit, require, ok_bind, hheader]
    rfl

/-- A call on a bad program stops the process: an assertion fails, if the environment
has not overflown its array before. -/
theorem callExecve_bad_program (hreach : (forestRuns root).Reachable s) (ht : t < s.nrTasks)
    {hostCpath : CString} (hpath : s.execvePath t args.filename = .ok hostCpath)
    (hbad : BadProgram (hostFiles hostCpath)) :
    callExecve s t args alloc hostFiles =
        .error (if args.envp.length < maxNrEnvp then .assertion else .outOfBounds) ∧
      ¬ FailsHarmlessly s t (callExecveReturn s t args alloc hostFiles) := by
  have hstops : callExecve s t args alloc hostFiles =
      .error (if args.envp.length < maxNrEnvp then .assertion else .outOfBounds) := by
    have hs := wellFormed_of_reachable hreach
    obtain ⟨owner, howner⟩ := hs.exists_owner .vm t
    have hlinked := (hs.getLinkedVm_iff ht).mpr howner
    have hshares : (s.vm owner).links.clonedVm = false := hs.owner_shouldGo howner
    rw [Forest.execvePath, hlinked, ok_bind] at hpath
    unfold callExecve hostEnvp
    split
    next hroom =>
      simp only [pure_eq_ok, ok_bind, hlinked, reclaimTask_of_owner hshares, Forest.setVm,
        Function.update_self, hpath, loadTask, programInit_bad hbad, error_bind]
    next => rfl
  refine ⟨hstops, ?_⟩
  rintro ⟨rv, s', hreturns, -⟩
  rw [callExecveReturn, hstops] at hreturns
  cases hreturns

/-- The initial task executes an empty file. -/
theorem callExecve_bad_program_empty :
    ∃ s, (forestRuns (.ofBuffer [47, 115, 114, 118])).Reachable s ∧
      ¬ FailsHarmlessly s 0
        (callExecveReturn s 0 ⟨slashX, [], []⟩ (.lowest 8) fun _ => some []) := by
  have hrun : (do
      let s ← applicationSandboxInit (bareBoot (.ofBuffer [47, 115, 114, 118])) (.lowest 8)
      return s.nrTasks) = .ok 1 := by
    decide +kernel
  obtain ⟨s, hboot, -⟩ := bind_eq_ok.mp hrun
  obtain ⟨hs, hnr, -, hlinks⟩ := applicationSandboxInit_ok hboot
  have hreach : (forestRuns (.ofBuffer [47, 115, 114, 118])).Reachable s :=
    .init ⟨_, _, rfl, hboot⟩
  have ht : 0 < s.nrTasks := by rw [hnr]; decide
  obtain ⟨hostCpath, hpath⟩ := execveHostPath_slashX (hs.root_length 0)
  have hself : getLinkedVm s 0 .vm = .ok 0 := hs.getLinkedVm_self .vm ht (by rw [hlinks]; rfl)
  have hresolved : s.execvePath 0 slashX = .ok hostCpath := by
    rw [Forest.execvePath, hself, ok_bind, hpath]
  have hbad : BadProgram (some []) := by
    intro bytes hbytes
    cases hbytes
    exact Or.inl (by decide)
  exact ⟨s, hreach, (callExecve_bad_program hreach ht hresolved hbad).2⟩

/-- The initial task executes a program that does not exist, and the process exits. -/
theorem execve_missing_file_exits :
    ∃ s, (forestRuns (.ofBuffer [47, 115, 114, 118])).Reachable s ∧ 0 < s.nrTasks ∧
      callExecveReturn s 0 ⟨slashX, [], []⟩ (.lowest 8) (fun _ => none) = .error .assertion ∧
      ¬ FailsHarmlessly s 0
        (callExecveReturn s 0 ⟨slashX, [], []⟩ (.lowest 8) fun _ => none) := by
  have hrun : (do
      let s ← applicationSandboxInit (bareBoot (.ofBuffer [47, 115, 114, 118])) (.lowest 8)
      let exits : Bool :=
        match callExecveReturn s 0 ⟨slashX, [], []⟩ (.lowest 8) (fun _ => none) with
        | .error .assertion => true
        | _ => false
      return (s.nrTasks, exits)) = .ok (1, true) := by
    decide +kernel
  obtain ⟨s, hboot, hvalues⟩ := bind_eq_ok.mp hrun
  simp only [pure_eq_ok, Except.ok.injEq, Prod.mk.injEq] at hvalues
  obtain ⟨hnr, hexits⟩ := hvalues
  split at hexits
  next hstops =>
    refine ⟨s, .init ⟨_, _, rfl, hboot⟩, by rw [hnr]; decide, hstops, ?_⟩
    rintro ⟨rv, s', hreturns, -⟩
    rw [hstops] at hreturns
    cases hreturns
  next => cases hexits

end Hyrule
