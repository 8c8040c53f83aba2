import Hyrule.Fs.Slots
import Hyrule.Lib.Traced
import Hyrule.Memory.Access
import Hyrule.Task.GuestBuffers

/-!
# Descriptor arguments

The calls of `vfs.c` that take a descriptor, as code on the array `files` that tells
at which indices it accesses the array.  Without the indices they are the functions of
the other modules: `doClose_refines` and the theorems behind it say so of every call
that these have.
-/

namespace Hyrule

open Lib Lib.Result

/-! ## The source -/

/-- A system call of the host on descriptors, with what it is given. -/
inductive FdRequest where
  | close (hostFd : Int)
  /-- `read`, `write`, `writev` and `getdents64`. -/
  | buffer (call : HostCall)
  | ioctl (hostFd : Int) (request : Word) (argp : Option HostAddress)
  | sendfile (outFd inFd : Int) (offset : Option HostAddress) (count : Word)
  | lseek (hostFd : Int) (offset whence : Word)
  | fcntl (hostFd : Int) (cmd : Word) (arg : Option Word)
  | dup (hostFd : Int)

/-- Code on the array `files`. -/
abbrev TableM := TracedM maxFilesNr File

namespace TableM

/-- `vm_files->files[fd]`. -/
def entry (fd : Word) : TableM File := TracedM.read fd.toNat

/-- The loop of `allocate_file_descriptor`. -/
def findFree : List (Fin maxFilesNr) → TableM (Option (Fin maxFilesNr))
  | [] => return none
  | i :: rest => do
      if (← TracedM.read i).valid then findFree rest
      else
        TracedM.write i (.allocated i)
        return some i

/-- `allocate_file_descriptor`. -/
def allocateFileDescriptor : TableM (Option (Fin maxFilesNr)) :=
  findFree (List.finRange maxFilesNr)

/-- `deallocate_file_descriptor` of an entry. -/
def deallocateFileDescriptor (i : Nat) : TableM Unit := do
  let f ← TracedM.read i
  TracedM.lift (check (f.valid = true))
  TracedM.write i .zero

/-- What stands behind `fd > MAX_FILES_NR || !files[fd].valid`. -/
def guarded (fd code : Word) (body : TableM Word) : TableM Word :=
  if fd.toNat > maxFilesNr then return code
  else do
    let f ← entry fd
    if f.valid then body else return code

section Calls

variable (host : FdRequest → HostAnswer) (c : CallContext)

/-- `do_close`. -/
def doClose (fd : Word) : TableM Word :=
  guarded fd ebadf do
    let f ← entry fd
    deallocateFileDescriptor fd.toNat
    return (host (.close f.hostFd)).errno

/-- `do_writev`, with whether `malloc` returns. -/
def doWritev (fd : Word) (guestIovs : HostAddress) (iovcnt : Word) (mallocReturns : Bool) :
    TableM Word :=
  guarded fd einval do
    if mallocReturns then
      let vec ← TracedM.lift ((List.range iovcnt.toNat).mapM (hostVec c guestIovs))
      let f ← entry fd
      return (host (.buffer (.writev f.hostFd vec))).errno
    else return enomem

/-- `do_write`. -/
def doWrite (fd : Word) (buf : HostAddress) (nrWrite : Word) : TableM Word :=
  guarded fd ebadf do
    let f ← entry fd
    return (host (.buffer (.write f.hostFd ⟨buf, nrWrite.toNat⟩))).errno

/-- `do_read`. -/
def doRead (fd : Word) (buf : HostAddress) (nrRead : Word) : TableM Word :=
  guarded fd ebadf do
    let f ← entry fd
    return (host (.buffer (.read f.hostFd ⟨buf, nrRead.toNat⟩))).errno

/-- The argument of `ioctl`, which is null for an address that is not mapped. -/
def ioctlArgument (argpAddr : Word) : Result (Option HostAddress) := do
  if ← userAccessible c.regions argpAddr then return some (← userWorldAddress c.regions argpAddr)
  else return none

/-- `do_ioctl`. -/
def doIoctl (fd request argpAddr : Word) : TableM Word :=
  guarded fd ebadf do
    let argp ← TracedM.lift (ioctlArgument c argpAddr)
    let f ← entry fd
    return (host (.ioctl f.hostFd request argp)).errno

/-- `do_getdents64`.  A failure of the host is returned as it is. -/
def doGetdents64 (fd dirpAddr count : Word) : TableM Word :=
  guarded fd ebadf do
    let dirp ← TracedM.lift (userWorldAddress c.regions dirpAddr)
    let f ← entry fd
    return BitVec.ofInt 32 (host (.buffer (.getdents64 f.hostFd ⟨dirp, count.toNat⟩))).value

/-- `do_sendfile`. -/
def doSendfile (outFd fd : Word) (offset : Option HostAddress) (count : Word) : TableM Word :=
  guarded fd ebadf <| guarded outFd ebadf do
    let target ← entry outFd
    let source ← entry fd
    return (host (.sendfile target.hostFd source.hostFd offset count)).errno

/-- `do_lseek`. -/
def doLseek (fd offset whence : Word) : TableM Word :=
  guarded fd ebadf do
    let f ← entry fd
    return (host (.lseek f.hostFd offset whence)).errno

/-- The entry of a duplicate, which `allocate_file_descriptor` returned, is filled. -/
def fillDuplicate (i : Fin maxFilesNr) (fd : Word) (hostFd : Int) : TableM Word := do
  let target ← TracedM.read i
  let source ← entry fd
  TracedM.write i (File.copyPath { target with hostFd } source)
  return BitVec.ofNat 32 i

/-- `do_fcntl_duplicate_fd`. -/
def doFcntlDuplicateFd (fd cmd arg : Word) : TableM Word :=
  guarded fd ebadf do
    match ← allocateFileDescriptor with
    | none => return enomem
    | some i =>
        let f ← entry fd
        match host (.fcntl f.hostFd cmd (some arg)) with
        | .fails errno =>
            deallocateFileDescriptor i
            return (HostAnswer.fails errno).errno
        | .returns hostFd => fillDuplicate i fd hostFd

/-- `do_fcntl_getfd`, `do_fcntl_getfl` and `do_fcntl_setfd`. -/
def doFcntlOnHost (fd cmd : Word) (arg : Option Word) : TableM Word :=
  guarded fd ebadf do
    let f ← entry fd
    return (host (.fcntl f.hostFd cmd arg)).errno

/-- `do_fcntl_getfd`. -/
def doFcntlGetfd (fd : Word) : TableM Word := doFcntlOnHost host fd 1 none

/-- `do_fcntl_getfl`. -/
def doFcntlGetfl (fd : Word) : TableM Word := doFcntlOnHost host fd 3 none

/-- `do_fcntl_setfd`. -/
def doFcntlSetfd (fd arg : Word) : TableM Word := doFcntlOnHost host fd 2 (some arg)

/-- `call_fnctl`, with `F_DUPFD` and `F_DUPFD_CLOEXEC` first. -/
def callFnctl (fd cmd arg : Word) : TableM Word :=
  match cmd.toNat with
  | 0 | 1030 => doFcntlDuplicateFd host fd cmd arg
  | 1 => doFcntlGetfd host fd
  | 3 => doFcntlGetfl host fd
  | 2 => doFcntlSetfd host fd arg
  | _ => return enosys

/-- `call_dup`. -/
def callDup (fd : Word) : TableM Word :=
  guarded fd ebadf do
    match ← allocateFileDescriptor with
    | none => return enomem
    | some i =>
        let f ← entry fd
        fillDuplicate i fd (host (.dup f.hostFd)).value

/-- The entry `new_fd` is closed, if it is valid. -/
def closeTarget (newFd : Word) : TableM Unit := do
  let target ← entry newFd
  if target.valid then
    let _ ← doClose host newFd
    return ()
  else return ()

/-- The entry `new_fd` is filled. -/
def fillTarget (oldFd newFd : Word) : TableM Word := do
  let target ← entry newFd
  let source ← entry oldFd
  TracedM.write newFd.toNat (File.copyPath { target with
    valid := true, fd := newFd.toNat, hostFd := (host (.dup source.hostFd)).value } source)
  return newFd

/-- `call_dup3`. -/
def callDup3 (oldFd newFd : Word) : TableM Word :=
  guarded oldFd ebadf do
    if newFd.toNat > maxFilesNr then return ebadf
    else if newFd = oldFd then return 0
    else
      closeTarget host newFd
      fillTarget host oldFd newFd

end Calls

end TableM

/-- A call with descriptors. -/
inductive DescriptorCall where
  | close (fd : Word)
  | read (fd : Word) (buf : HostAddress) (nrRead : Word)
  | write (fd : Word) (buf : HostAddress) (nrWrite : Word)
  | writev (fd : Word) (guestIovs : HostAddress) (iovcnt : Word) (mallocReturns : Bool)
  | ioctl (fd request argpAddr : Word)
  | getdents64 (fd dirpAddr count : Word)
  | sendfile (outFd fd : Word) (offset : Option HostAddress) (count : Word)
  | lseek (fd offset whence : Word)
  | fnctl (fd cmd arg : Word)
  | dup (fd : Word)
  | dup3 (oldFd newFd : Word)

/-- The code of a call. -/
def DescriptorCall.code (host : FdRequest → HostAnswer) (c : CallContext) :
    DescriptorCall → TableM Word
  | .close fd => TableM.doClose host fd
  | .read fd buf nrRead => TableM.doRead host fd buf nrRead
  | .write fd buf nrWrite => TableM.doWrite host fd buf nrWrite
  | .writev fd guestIovs iovcnt mallocReturns =>
      TableM.doWritev host c fd guestIovs iovcnt mallocReturns
  | .ioctl fd request argpAddr => TableM.doIoctl host c fd request argpAddr
  | .getdents64 fd dirpAddr count => TableM.doGetdents64 host c fd dirpAddr count
  | .sendfile outFd fd offset count => TableM.doSendfile host outFd fd offset count
  | .lseek fd offset whence => TableM.doLseek host fd offset whence
  | .fnctl fd cmd arg => TableM.callFnctl host fd cmd arg
  | .dup fd => TableM.callDup host fd
  | .dup3 oldFd newFd => TableM.callDup3 host oldFd newFd

/-- What a call returns, and the table behind it. -/
def DescriptorCall.run (host : FdRequest → HostAnswer) (c : CallContext) (call : DescriptorCall) :
    Result Word × Traced maxFilesNr File :=
  (call.code host c).outcome ⟨c.files, []⟩

/-! ## The calls without the indices -/

namespace TableM

section Refinement

variable {α : Type} {fd code : Word} {body : TableM Word} {i : Fin maxFilesNr}
  {g : FileTable → Result (Word × FileTable)}

/-- The host descriptor of an entry, if it is in the table. -/
def hostFdOf (t : FileTable) (fd : Word) : Int :=
  if h : fd.toNat < maxFilesNr then (t ⟨fd.toNat, h⟩).hostFd else 0

theorem hostFdOf_eq {t : FileTable} {j : Fin maxFilesNr} (h : fd.toNat = j) :
    hostFdOf t fd = (t j).hostFd := by
  obtain ⟨j, hj⟩ := j
  cases h
  exact dif_pos hj

theorem entry_bind_refines {f : File → TableM α} {k : File → FileTable → Result (α × FileTable)}
    (fd : Word) (hf : ∀ x, (f x).Refines (k x)) :
    TracedM.Refines (entry fd >>= f) fun t => FileTable.file t fd >>= fun x => k x t := by
  intro a
  unfold entry FileTable.file
  split
  next hlt =>
    rw [TracedM.outcome_bind_ok (TracedM.outcome_read ⟨fd.toNat, hlt⟩)]
    exact hf _ _
  next hge =>
    rw [TracedM.outcome_bind_error (TracedM.outcome_read_outside (Nat.not_lt.mp hge))]
    rfl

theorem setEntry_bind_refines {f : Unit → TableM α} {k : FileTable → Result (α × FileTable)}
    (fd : Word) (x : File) (hf : ∀ u, (f u).Refines k) :
    TracedM.Refines (TracedM.write fd.toNat x >>= f) fun t => FileTable.setFile t fd x >>= k := by
  intro a
  unfold FileTable.setFile
  split
  next hlt =>
    rw [TracedM.outcome_bind_ok (TracedM.outcome_write ⟨fd.toNat, hlt⟩ x)]
    exact hf () _
  next hge =>
    rw [TracedM.outcome_bind_error (TracedM.outcome_write_outside (Nat.not_lt.mp hge) x)]
    rfl

theorem guarded_refines
    (h : ∀ a, isBadDescriptor a.cells fd = .ok false →
      TracedM.erase (TracedM.outcome body a) = g a.cells) :
    (guarded fd code body).Refines (fun t => do
      if ← isBadDescriptor t fd then return (code, t) else g t) := by
  intro a
  change _ = isBadDescriptor a.cells fd >>= _
  unfold guarded
  split
  next hgt =>
    rw [isBadDescriptor, if_pos hgt]
    rfl
  next hle =>
    by_cases hlt : fd.toNat < maxFilesNr
    · obtain ⟨i, hi⟩ : ∃ i : Fin maxFilesNr, fd.toNat = i := ⟨⟨fd.toNat, hlt⟩, rfl⟩
      have hread := TracedM.outcome_read (a := a) i
      have hbad := isBadDescriptor_eq (t := a.cells) hi
      rw [entry, hi, TracedM.outcome_bind_ok hread]
      cases hvalid : (a.cells i).valid with
      | true =>
        rw [hvalid] at hbad
        rw [if_pos rfl, hbad]
        exact h ⟨a.cells, a.accessed ++ [i.val]⟩ hbad
      | false =>
        rw [hbad, hvalid]
        rfl
    · have hread := TracedM.outcome_read_outside (a := a) (Nat.not_lt.mp hlt)
      rw [entry, TracedM.outcome_bind_error hread, isBadDescriptor, if_neg hle, FileTable.file,
        dif_neg hlt]
      rfl

/-- The entry that a search finds is allocated. -/
theorem findFree_refines (l : List (Fin maxFilesNr)) :
    (findFree l).Refines fun t => (l.find? fun i => !(t i).valid).elim (.ok (none, t))
      fun i => .ok (some i, Function.update t i (.allocated i)) := by
  induction l with
  | nil => exact .pure none
  | cons i rest ih =>
    intro a
    have hread := TracedM.outcome_read (a := a) i
    cases hvalid : (a.cells i).valid with
    | true =>
      rw [findFree, TracedM.outcome_bind_ok hread, if_pos hvalid, ih]
      simp [hvalid]
    | false =>
      rw [findFree, TracedM.outcome_bind_ok hread, if_neg (by simp [hvalid]),
        TracedM.outcome_bind_ok (TracedM.outcome_write i _)]
      simp [hvalid, TracedM.erase, Except.map]

theorem allocate_bind_refines {f : Option (Fin maxFilesNr) → TableM Word}
    {full : FileTable → Result (Word × FileTable)}
    {k : Fin maxFilesNr → FileTable → Result (Word × FileTable)}
    (hfull : (f none).Refines full) (hf : ∀ i, (f (some i)).Refines (k i)) :
    TracedM.Refines (allocateFileDescriptor >>= f) fun t =>
      (Hyrule.allocateFileDescriptor t).elim (full t) fun new => k new.1 new.2 := by
  have hbody : ∀ found, (f found).Refines (found.elim full k) := by
    intro found
    cases found with
    | none => exact hfull
    | some i => exact hf i
  refine ((findFree_refines (List.finRange maxFilesNr)).bind hbody).congr fun t => ?_
  unfold Hyrule.allocateFileDescriptor
  cases (List.finRange maxFilesNr).find? fun i => !(t i).valid with
  | none => rfl
  | some i => rfl

theorem outcome_deallocate {a : Traced maxFilesNr File} (i : Fin maxFilesNr)
    (hvalid : (a.cells i).valid = true) :
    TracedM.outcome (deallocateFileDescriptor i) a =
      (.ok (), ⟨Function.update a.cells i .zero, a.accessed ++ [i.val] ++ [i.val]⟩) := by
  rw [deallocateFileDescriptor, TracedM.outcome_bind_ok (TracedM.outcome_read i),
    check_true hvalid, TracedM.outcome_bind_ok (TracedM.outcome_lift _),
    TracedM.outcome_write]

theorem deallocate_bind_refines {f : Unit → TableM Word} (i : Fin maxFilesNr)
    (hf : ∀ u, (f u).Refines g) :
    TracedM.Refines (deallocateFileDescriptor i >>= f) fun t =>
      Hyrule.deallocateFileDescriptor t i >>= g := by
  intro a
  change _ = Hyrule.deallocateFileDescriptor a.cells i >>= g
  unfold Hyrule.deallocateFileDescriptor
  by_cases hvalid : (a.cells i).valid = true
  · rw [TracedM.outcome_bind_ok (outcome_deallocate i hvalid), check_true hvalid]
    exact hf () _
  · rw [check, if_neg hvalid, deallocateFileDescriptor, bind_assoc,
      TracedM.outcome_bind_ok (TracedM.outcome_read i), check, if_neg hvalid]
    rfl

/-- What `call_dup` and `do_fcntl_duplicate_fd` do to the entry that they allocated. -/
def filled (t : FileTable) (i : Fin maxFilesNr) (hostFd : Int) (source : File) :
    Result (Word × FileTable) :=
  .ok (BitVec.ofNat 32 i, Function.update t i (File.copyPath { t i with hostFd } source))

theorem fillDuplicate_refines (i : Fin maxFilesNr) (fd : Word) (hostFd : Int) :
    (fillDuplicate i fd hostFd).Refines fun t =>
      FileTable.file t fd >>= fun source => filled t i hostFd source := by
  intro a
  rw [fillDuplicate, TracedM.outcome_bind_ok (TracedM.outcome_read i)]
  refine entry_bind_refines fd (k := fun source t => .ok (BitVec.ofNat 32 i,
    Function.update t i (File.copyPath { a.cells i with hostFd } source))) (fun source => ?_) _
  exact .write_bind i _ fun _ => .pure _

theorem doClose_refines (host : FdRequest → HostAnswer) (fd : Word) :
    (doClose host fd).Refines fun t => Hyrule.doClose t fd (host (.close (hostFdOf t fd))) := by
  refine guarded_refines (g := fun t => do
    return ((host (.close (hostFdOf t fd))).errno, ← FileTable.setFile t fd .zero))
    fun a hgood => ?_
  obtain ⟨i, hfd, hvalid, -⟩ := valid?_of_good hgood
  rw [entry, hfd, TracedM.outcome_bind_ok (TracedM.outcome_read i), setFile_eq hfd, hostFdOf_eq hfd,
    TracedM.outcome_bind_ok (outcome_deallocate (a := ⟨a.cells, a.accessed ++ [i.val]⟩) i hvalid)]
  rfl

/-- A call that fills an entry that it allocates.  The source is the same behind the
allocation. -/
theorem duplicate_refines {f : Option (Fin maxFilesNr) → TableM Word}
    {finish : Fin maxFilesNr → File → TableM Word}
    {k : Fin maxFilesNr → File → FileTable → Result (Word × FileTable)}
    (hnone : f none = pure enomem) (hsome : ∀ i, f (some i) = entry fd >>= finish i)
    (hfinish : ∀ i x, (finish i x).Refines (k i x)) {a : Traced maxFilesNr File}
    {j : Fin maxFilesNr} (hfd : fd.toNat = j) (hvalid : (a.cells j).valid = true) :
    TracedM.erase (TracedM.outcome (allocateFileDescriptor >>= f) a) =
      (Hyrule.allocateFileDescriptor a.cells).elim (.ok (enomem, a.cells))
        fun new => k new.1 (a.cells j) new.2 := by
  have hfull : (f none).Refines fun t => .ok (enomem, t) := hnone ▸ .pure enomem
  have hnew : ∀ i, (f (some i)).Refines fun t => FileTable.file t fd >>= fun x => k i x t :=
    fun i => hsome i ▸ entry_bind_refines fd (hfinish i)
  refine (allocate_bind_refines hfull hnew a).trans ?_
  dsimp only
  cases halloc : Hyrule.allocateFileDescriptor a.cells with
  | none => rfl
  | some new =>
    obtain ⟨i, t⟩ := new
    obtain ⟨hi, rfl⟩ := allocateFileDescriptor_some halloc
    simp only [Option.elim_some]
    rw [← File.allocated, allocated_source hi hfd hvalid]
    rfl

theorem callDup_refines (host : FdRequest → HostAnswer) (fd : Word) :
    (callDup host fd).Refines fun t => Hyrule.callDup t fd (host (.dup (hostFdOf t fd))) := by
  refine (guarded_refines (g := fun t => (Hyrule.allocateFileDescriptor t).elim
    (.ok (enomem, t)) fun new => FileTable.file new.2 fd >>= fun source =>
      filled new.2 new.1 (host (.dup (hostFdOf t fd))).value source) fun a hgood => ?_).congr
    fun t => ?_
  · obtain ⟨j, hfd, hvalid, -⟩ := valid?_of_good hgood
    rw [hostFdOf_eq hfd]
    exact duplicate_refines rfl (fun _ => rfl)
      (fun i x => fillDuplicate_refines i fd (host (.dup x.hostFd)).value) hfd hvalid
  · unfold Hyrule.callDup
    cases Hyrule.allocateFileDescriptor t with
    | none => rfl
    | some new => rfl

/-- What `do_fcntl_duplicate_fd` does behind the allocation. -/
def finished (t : FileTable) (i : Fin maxFilesNr) (fd : Word) : HostAnswer →
    Result (Word × FileTable)
  | .fails errno => do
      return ((HostAnswer.fails errno).errno, ← Hyrule.deallocateFileDescriptor t i)
  | .returns hostFd => FileTable.file t fd >>= fun source => filled t i hostFd source

theorem doFcntlDuplicateFd_refines (host : FdRequest → HostAnswer) (fd cmd arg : Word) :
    (doFcntlDuplicateFd host fd cmd arg).Refines fun t =>
      Hyrule.doFcntlDuplicateFd t fd (host (.fcntl (hostFdOf t fd) cmd (some arg))) := by
  refine (guarded_refines (g := fun t => (Hyrule.allocateFileDescriptor t).elim
    (.ok (enomem, t)) fun new =>
      finished new.2 new.1 fd (host (.fcntl (hostFdOf t fd) cmd (some arg))))
    fun a hgood => ?_).congr fun t => ?_
  · obtain ⟨j, hfd, hvalid, -⟩ := valid?_of_good hgood
    rw [hostFdOf_eq hfd]
    refine duplicate_refines rfl (fun _ => rfl) (k := fun i x t =>
      finished t i fd (host (.fcntl x.hostFd cmd (some arg)))) (fun i x => ?_) hfd hvalid
    cases host (.fcntl x.hostFd cmd (some arg)) with
    | fails errno => exact deallocate_bind_refines i fun _ => .pure _
    | returns hostFd => exact fillDuplicate_refines i fd hostFd
  · unfold Hyrule.doFcntlDuplicateFd
    cases Hyrule.allocateFileDescriptor t with
    | none => rfl
    | some new =>
      cases host (.fcntl (hostFdOf t fd) cmd (some arg)) with
      | fails errno => rfl
      | returns hostFd => rfl

theorem closeTarget_bind_refines {f : Unit → TableM Word} (host : FdRequest → HostAnswer)
    (newFd : Word) (hf : ∀ u, (f u).Refines g) :
    TracedM.Refines (closeTarget host newFd >>= f) fun t =>
      Hyrule.closeTarget t newFd (host (.close (hostFdOf t newFd))) >>= g := by
  have hbody : ∀ target : File, TracedM.Refines ((if target.valid then do
        let _ ← doClose host newFd
        return ()
      else return ()) >>= f)
      fun t => if target.valid then
        Hyrule.doClose t newFd (host (.close (hostFdOf t newFd))) >>= fun r => g r.2 else g t := by
    intro target
    split
    next =>
      rw [bind_assoc]
      exact (doClose_refines host newFd).bind fun _ => hf ()
    next => exact hf ()
  rw [closeTarget, bind_assoc]
  refine (entry_bind_refines newFd hbody).congr fun t => ?_
  unfold Hyrule.closeTarget
  cases FileTable.file t newFd with
  | error e => rfl
  | ok target =>
    rw [ok_bind, ok_bind]
    split
    next =>
      rw [bind_assoc]
      rfl
    next => rfl

/-- The table behind `fillTarget`. -/
def targetFilled (host : FdRequest → HostAnswer) (oldFd newFd : Word) (t : FileTable) :
    Result (Word × FileTable) := do
  let target ← t.file newFd
  let source ← t.file oldFd
  let t ← t.setFile newFd (File.copyPath { target with
    valid := true, fd := newFd.toNat, hostFd := (host (.dup source.hostFd)).value } source)
  return (newFd, t)

theorem fillTarget_refines (host : FdRequest → HostAnswer) (oldFd newFd : Word) :
    (fillTarget host oldFd newFd).Refines (targetFilled host oldFd newFd) := by
  refine entry_bind_refines newFd fun target => entry_bind_refines oldFd fun source => ?_
  exact setEntry_bind_refines newFd _ fun _ => .pure newFd

theorem callDup3_refines (host : FdRequest → HostAnswer) (oldFd newFd : Word) :
    (callDup3 host oldFd newFd).Refines fun t => Hyrule.callDup3 t oldFd newFd
      (host (.close (hostFdOf t newFd))) (host (.dup (hostFdOf t oldFd))) := by
  refine guarded_refines fun a hgood => ?_
  obtain ⟨j, hold, -, -⟩ := valid?_of_good hgood
  split
  next => rfl
  next =>
    split
    next => rfl
    next hne =>
      refine (closeTarget_bind_refines host newFd
        (fun _ => fillTarget_refines host oldFd newFd) a).trans ?_
      dsimp only
      cases hclose : Hyrule.closeTarget a.cells newFd (host (.close (hostFdOf a.cells newFd))) with
      | error e => rfl
      | ok t =>
        obtain ⟨i, hnew, -, hothers, -⟩ := closeTarget_step (fun _ => none) hclose
        have hji : j ≠ i := by
          rintro rfl
          exact hne (BitVec.eq_of_toNat_eq (hnew.trans hold.symm))
        simp only [targetFilled, ok_bind, file_eq hnew, file_eq hold, hostFdOf_eq hold,
          hothers j hji]

/-- What a call with guest buffers returns, with the answer of the host. -/
def answered (answer : HostCall → Word) : Dispatch → Word
  | .returns code => code
  | .calls call => answer call

theorem onDescriptor_refines {answer : HostCall → Word} {k : Int → Result Dispatch}
    (h : ∀ (a : Traced maxFilesNr File) (j : Fin maxFilesNr), fd.toNat = j →
      TracedM.erase (TracedM.outcome body a) =
        k (a.cells j).hostFd >>= fun d => .ok (answered answer d, a.cells)) :
    (guarded fd code body).Refines fun t =>
      onDescriptor t fd code k >>= fun d => .ok (answered answer d, t) := by
  have hbody : ∀ a : Traced maxFilesNr File, isBadDescriptor a.cells fd = .ok false →
      TracedM.erase (TracedM.outcome body a) = FileTable.file a.cells fd >>= fun f =>
        k f.hostFd >>= fun d => .ok (answered answer d, a.cells) := by
    intro a hgood
    obtain ⟨j, hfd, -, -⟩ := valid?_of_good hgood
    rw [file_eq hfd]
    exact h a j hfd
  refine (guarded_refines (g := fun t => FileTable.file t fd >>= fun f =>
    k f.hostFd >>= fun d => .ok (answered answer d, t)) hbody).congr fun t => ?_
  unfold onDescriptor
  rw [bind_assoc]
  cases isBadDescriptor t fd with
  | error e => rfl
  | ok bad =>
    cases bad with
    | true => rfl
    | false => simp [bind_assoc]

section Buffers

variable (host : FdRequest → HostAnswer) (c : CallContext) (fd : Word)

/-- The host's answer to a call with buffers. -/
def bufferErrno (call : HostCall) : Word := (host (.buffer call)).errno

theorem entry_return_refines {a : Traced maxFilesNr File} {j : Fin maxFilesNr} (hfd : fd.toNat = j)
    (f : File → Word) :
    TracedM.erase (TracedM.outcome (entry fd >>= fun x => pure (f x)) a) =
      .ok (f (a.cells j), a.cells) := by
  rw [entry, hfd, TracedM.outcome_bind_ok (TracedM.outcome_read j)]
  rfl

theorem doRead_refines (buf : HostAddress) (nrRead : Word) :
    (doRead host fd buf nrRead).Refines fun t => Hyrule.doRead t fd buf nrRead >>= fun d =>
      .ok (answered (bufferErrno host) d, t) :=
  onDescriptor_refines fun _ _ hfd => entry_return_refines fd hfd _

theorem doWrite_refines (buf : HostAddress) (nrWrite : Word) :
    (doWrite host fd buf nrWrite).Refines fun t => Hyrule.doWrite t fd buf nrWrite >>= fun d =>
      .ok (answered (bufferErrno host) d, t) :=
  onDescriptor_refines fun _ _ hfd => entry_return_refines fd hfd _

theorem doGetdents64_refines (dirpAddr count : Word) :
    (doGetdents64 host c fd dirpAddr count).Refines fun t =>
      Hyrule.doGetdents64 { c with files := t } fd dirpAddr count >>= fun d =>
        .ok (answered (fun call => BitVec.ofInt 32 (host (.buffer call)).value) d, t) := by
  refine onDescriptor_refines (k := fun hostFd => do
    let dirp ← userWorldAddress c.regions dirpAddr
    return .calls (.getdents64 hostFd ⟨dirp, count.toNat⟩)) fun a j hfd => ?_
  cases userWorldAddress c.regions dirpAddr with
  | error e => rfl
  | ok dirp =>
    rw [TracedM.outcome_bind_ok (TracedM.outcome_lift _)]
    exact entry_return_refines fd hfd _

theorem doWritev_refines (guestIovs : HostAddress) (iovcnt : Word) (mallocReturns : Bool) :
    (doWritev host c fd guestIovs iovcnt mallocReturns).Refines fun t =>
      Hyrule.doWritev { c with files := t } fd guestIovs iovcnt mallocReturns >>= fun d =>
        .ok (answered (bufferErrno host) d, t) := by
  refine onDescriptor_refines (k := fun hostFd =>
    if mallocReturns then do
      let vec ← (List.range iovcnt.toNat).mapM (hostVec c guestIovs)
      return .calls (.writev hostFd vec)
    else return .returns enomem) fun a j hfd => ?_
  cases mallocReturns with
  | false => rfl
  | true =>
    simp only [if_true]
    cases (List.range iovcnt.toNat).mapM (hostVec c guestIovs) with
    | error e => rfl
    | ok vec =>
      rw [TracedM.outcome_bind_ok (TracedM.outcome_lift _)]
      exact entry_return_refines fd hfd _

end Buffers

end Refinement

end TableM

end Hyrule
