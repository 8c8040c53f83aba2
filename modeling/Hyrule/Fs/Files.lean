import Hyrule.Fs.HostPath
import Hyrule.Memory.VirtualMemory
import Mathlib.Data.List.FinRange

/-!
# File tables

The part of `struct virtual_machine` that `CLONE_FILES` shares, with the functions
of `vfs.c` that change it, and its copy in `task.c`.  What the host answers to a
system call is an argument of the function that makes it.

The checks of a descriptor let `MAX_FILES_NR` itself pass.  The entry they then
look at is not in the table.
-/

namespace Hyrule

open Lib Lib.Result

/-! ## Tables -/

/-- `MAX_FILES_NR`. -/
abbrev maxFilesNr : Nat := 128

/-- `enum FILE_TYPE`. -/
inductive FileType where
  | error
  | regular
  | socket
deriving DecidableEq

/-- `struct file`. -/
structure File where
  fd : Int
  hostFd : Int
  valid : Bool
  /-- `host_cpath`, if it is not null. -/
  hostCpath : Option CString
  flags : Word
  mode : Word
  fileType : FileType
deriving DecidableEq

/-- A zeroed `struct file`. -/
def File.zero : File := ⟨0, 0, false, none, 0, 0, .error⟩

/-- The array `files`. -/
abbrev FileTable := Fin maxFilesNr → File

namespace FileTable

def zero : FileTable := fun _ => .zero

/-- `files[fd]`. -/
def file (t : FileTable) (fd : Word) : Result File :=
  if h : fd.toNat < maxFilesNr then return t ⟨fd.toNat, h⟩ else throw .outOfBounds

/-- `files[fd] = f`. -/
def setFile (t : FileTable) (fd : Word) (f : File) : Result FileTable :=
  if h : fd.toNat < maxFilesNr then return Function.update t ⟨fd.toNat, h⟩ f
  else throw .outOfBounds

/-- The table has no valid entry. -/
def NoneValid (t : FileTable) : Prop := ∀ i, (t i).valid = false

instance (t : FileTable) : Decidable t.NoneValid := inferInstanceAs (Decidable (∀ _, _))

end FileTable

/-- A flag is set. -/
def hasFlag (flags flag : Word) : Bool := flags &&& flag ≠ 0

/-- What the host answers to a system call. -/
inductive HostAnswer where
  | fails (errno : Word)
  | returns (value : Nat)

/-- The value that the system call returns. -/
def HostAnswer.value : HostAnswer → Int
  | .fails _ => -1
  | .returns v => v

/-- `ERRNO` of the returned value. -/
def HostAnswer.errno : HostAnswer → Word
  | .fails e => -e
  | .returns v => BitVec.ofNat 32 v

/-- `-EBADF`. -/
def ebadf : Word := BitVec.ofInt 32 (-9)

/-- `-ENOSYS`. -/
def enosys : Word := BitVec.ofInt 32 (-38)

/-! ## The source -/

/-- `allocate_file_descriptor`. -/
def allocateFileDescriptor (t : FileTable) : Option (Fin maxFilesNr × FileTable) :=
  match (List.finRange maxFilesNr).find? fun i => !(t i).valid with
  | none => none
  | some i => some (i, Function.update t i { File.zero with fd := i.val, valid := true })

/-- `deallocate_file_descriptor`. -/
def deallocateFileDescriptor (t : FileTable) (i : Fin maxFilesNr) : Result FileTable := do
  check ((t i).valid = true)
  return Function.update t i .zero

/-- `fd > MAX_FILES_NR || !files[fd].valid`. -/
def isBadDescriptor (t : FileTable) (fd : Word) : Result Bool :=
  if fd.toNat > maxFilesNr then return true
  else do return !(← t.file fd).valid

/-- The host path that `do_openat` opens, after the other paths that it computes. -/
def openatPaths (root cwd : CString) (dirfd : Word) (path : CString) : Result CString := do
  let hostCpath ← openatHostPath root cwd dirfd path
  let guestCpath ← canonicalizePathName path
  let relativeDirPath ← relativeDirectory (throw .assertion) cwd dirfd path
  let guestAbsPath ← appendString (← appendString [] relativeDirPath) guestCpath
  let _ ← canonicalizePathName (CString.ofBuffer guestAbsPath)
  return hostCpath

/-- `do_openat`, with the answer to `open`. -/
def doOpenat (root cwd : CString) (t : FileTable) (dirfd : Word) (path : CString)
    (flags mode : Word) (answer : HostAnswer) : Result (Word × FileTable) := do
  let hostCpath ← openatPaths root cwd dirfd path
  match allocateFileDescriptor t with
  | none => return (enomem, t)
  | some (i, t) =>
      match answer with
      | .fails _ => return (answer.errno, ← deallocateFileDescriptor t i)
      | .returns hostFd =>
          return (BitVec.ofNat 32 i, Function.update t i
            { t i with hostFd, hostCpath := some hostCpath, fileType := .regular, mode, flags })

/-- `do_close`, with the answer to `close`. -/
def doClose (t : FileTable) (fd : Word) (answer : HostAnswer) : Result (Word × FileTable) := do
  if ← isBadDescriptor t fd then return (ebadf, t)
  else return (answer.errno, ← t.setFile fd .zero)

/-- What a duplicate takes over from a file with a path. -/
def File.copyPath (target source : File) : File :=
  match source.hostCpath with
  | none => target
  | some path =>
      { target with
        hostCpath := some path
        fileType := source.fileType
        flags := source.flags
        mode := source.mode }

/-- `call_dup`, with the answer to `dup`.  A failure is not noticed. -/
def callDup (t : FileTable) (fd : Word) (answer : HostAnswer) : Result (Word × FileTable) := do
  if ← isBadDescriptor t fd then return (ebadf, t)
  else
    match allocateFileDescriptor t with
    | none => return (enomem, t)
    | some (i, t) =>
        let target := { t i with hostFd := answer.value }
        return (BitVec.ofNat 32 i, Function.update t i (target.copyPath (← t.file fd)))

/-- `do_fcntl_duplicate_fd`, with the answer to `fcntl`. -/
def doFcntlDuplicateFd (t : FileTable) (fd : Word) (answer : HostAnswer) :
    Result (Word × FileTable) := do
  if ← isBadDescriptor t fd then return (ebadf, t)
  else
    match allocateFileDescriptor t with
    | none => return (enomem, t)
    | some (i, t) =>
        match answer with
        | .fails _ => return (answer.errno, ← deallocateFileDescriptor t i)
        | .returns hostFd =>
            let target := { t i with hostFd }
            return (BitVec.ofNat 32 i, Function.update t i (target.copyPath (← t.file fd)))

/-- The entry `new_fd` that `call_dup3` overwrites, after it was closed if it is
valid. -/
def closeTarget (t : FileTable) (newFd : Word) (closed : HostAnswer) : Result FileTable := do
  if (← t.file newFd).valid then return (← doClose t newFd closed).2 else return t

/-- `call_dup3`, with the answers to `close` and `dup`. -/
def callDup3 (t : FileTable) (oldFd newFd : Word) (closed answer : HostAnswer) :
    Result (Word × FileTable) := do
  if ← isBadDescriptor t oldFd then return (ebadf, t)
  else if newFd.toNat > maxFilesNr then return (ebadf, t)
  else if newFd = oldFd then return (0, t)
  else
    let t ← closeTarget t newFd closed
    let target := { ← t.file newFd with valid := true, fd := newFd.toNat, hostFd := answer.value }
    return (newFd, ← t.setFile newFd (target.copyPath (← t.file oldFd)))

/-- The loop body of `duplicate_files`, with the answer to `open` or `dup`.  A
failure is not noticed. -/
def duplicateFile (f : File) (answer : HostAnswer) : Result File :=
  if f.valid = false then return .zero
  else
    match f.fileType with
    | .regular => do
        check (f.hostCpath ≠ none)
        return { f with hostFd := answer.value }
    | .socket => return { f with hostFd := answer.value }
    | .error => throw .assertion

/-- `duplicate_files`. -/
def duplicateFiles (t : FileTable) (answers : Fin maxFilesNr → HostAnswer) : Result FileTable :=
  (List.finRange maxFilesNr).foldlM
    (fun child i => do return Function.update child i (← duplicateFile (t i) (answers i))) .zero

/-- A call on the file table. -/
inductive FileCall where
  | openat (dirfd : Word) (path : CString) (flags mode : Word) (answer : HostAnswer)
  | close (fd : Word) (answer : HostAnswer)
  | dup (fd : Word) (answer : HostAnswer)
  | dup3 (oldFd newFd : Word) (closed answer : HostAnswer)
  | fcntlDuplicateFd (fd : Word) (answer : HostAnswer)

/-! ## What the copy holds -/

/-- What a guest can tell of a valid descriptor. -/
structure Descriptor where
  fd : Int
  hostCpath : Option CString
  flags : Word
  mode : Word
  fileType : FileType
deriving DecidableEq

/-- What a guest can tell of an entry, if it is valid. -/
def File.descriptor (f : File) : Option Descriptor :=
  if f.valid then some ⟨f.fd, f.hostCpath, f.flags, f.mode, f.fileType⟩ else none

/-- The valid descriptors of a table. -/
def FileTable.descriptors (t : FileTable) (i : Fin maxFilesNr) : Option Descriptor :=
  (t i).descriptor

/-- A loop that fills the entries of a list leaves in each of them what its body
returned. -/
theorem foldlM_update {α : Type} {n : Nat} {f : Fin n → Result α} :
    ∀ {indices : List (Fin n)}, indices.Nodup → ∀ {t t' : Fin n → α},
      indices.foldlM (fun t i => do return Function.update t i (← f i)) t = .ok t' →
      (∀ i ∈ indices, f i = .ok (t' i)) ∧ ∀ i ∉ indices, t' i = t i := by
  intro indices
  induction indices with
  | nil =>
    intro _ t t' h
    obtain rfl : t = t' := by simpa using h
    exact ⟨by simp, fun _ _ => rfl⟩
  | cons i indices ih =>
    intro hnodup t t' h
    obtain ⟨hi, hnodup⟩ := List.nodup_cons.mp hnodup
    rw [List.foldlM_cons] at h
    obtain ⟨t₁, hstep, h⟩ := bind_eq_ok.mp h
    obtain ⟨a, ha, hstep⟩ := bind_eq_ok.mp hstep
    obtain rfl : Function.update t i a = t₁ := by simpa using hstep
    obtain ⟨hin, hout⟩ := ih hnodup h
    constructor
    · intro j hj
      rcases List.mem_cons.mp hj with rfl | hj
      · rw [ha, hout j hi, Function.update_self]
      · exact hin j hj
    · intro j hj
      have hne : j ≠ i := fun heq => hj (heq ▸ List.mem_cons_self)
      rw [hout j fun hmem => hj (List.mem_cons_of_mem i hmem), Function.update_of_ne hne]

theorem duplicateFiles_file {t t' : FileTable} {answers : Fin maxFilesNr → HostAnswer}
    (h : duplicateFiles t answers = .ok t') (i : Fin maxFilesNr) :
    duplicateFile (t i) (answers i) = .ok (t' i) :=
  (foldlM_update (List.nodup_finRange maxFilesNr) h).1 i (List.mem_finRange i)

/-- A copy is valid if the entry is, and then it differs in the host descriptor alone. -/
theorem duplicateFile_ok {f f' : File} {answer : HostAnswer}
    (h : duplicateFile f answer = .ok f') :
    f'.valid = f.valid ∧ (f.valid = true → f' = { f with hostFd := answer.value } ∧
      f.fileType ≠ .error ∧ (f.fileType = .regular → f.hostCpath ≠ none)) := by
  unfold duplicateFile at h
  split at h
  next hinvalid =>
    cases h
    exact ⟨hinvalid.symm, fun hvalid => by simp [hinvalid] at hvalid⟩
  next =>
    split at h
    next htype =>
      obtain ⟨_, hpath, h⟩ := bind_eq_ok.mp h
      cases h
      exact ⟨rfl, fun _ => ⟨rfl, by simp [htype], fun _ => check_eq_ok.mp hpath⟩⟩
    next htype =>
      cases h
      exact ⟨rfl, fun _ => ⟨rfl, by simp [htype], by simp [htype]⟩⟩
    next => cases h

theorem duplicateFile_descriptor {f f' : File} {answer : HostAnswer}
    (h : duplicateFile f answer = .ok f') : f'.descriptor = f.descriptor := by
  obtain ⟨hsame, hcopy⟩ := duplicateFile_ok h
  cases hvalid : f.valid with
  | false => simp [File.descriptor, hsame, hvalid]
  | true => simp [File.descriptor, (hcopy hvalid).1, hvalid]

/-- The copy of a table has the same valid descriptors. -/
theorem duplicateFiles_descriptors {t t' : FileTable} {answers : Fin maxFilesNr → HostAnswer}
    (h : duplicateFiles t answers = .ok t') : t'.descriptors = t.descriptors := by
  funext i
  exact duplicateFile_descriptor (duplicateFiles_file h i)

end Hyrule
