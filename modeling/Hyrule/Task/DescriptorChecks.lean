import Hyrule.Task.Descriptors

/-!
# Checks of descriptors

A call of `vfs.c` should access `files` inside its bounds alone, and should refuse a
descriptor that is not in the table or not open.  Every call checks its descriptors by
`fd > MAX_FILES_NR`, so `MAX_FILES_NR` itself passes, and the validity of an entry
behind the array is looked at.  `descriptorSafe_iff` says that this is all that goes
wrong.

`F_DUPFD` has a minimum for the new descriptor.  `call_fnctl` gives it to the host, whose
descriptors are others, and takes the lowest slot of the guest.  `honoursMinimum_iff`
says that the two come to the same if and only if no slot below the minimum is free.
-/

namespace Hyrule

open Lib Lib.Result

/-! ## What is expected, and when it holds -/

namespace DescriptorCall

/-- The descriptors that a call is given. -/
def descriptors : DescriptorCall → List Word
  | .close fd | .read fd _ _ | .write fd _ _ | .writev fd _ _ _ | .ioctl fd _ _
  | .getdents64 fd _ _ | .lseek fd _ _ | .fnctl fd _ _ | .dup fd => [fd]
  | .sendfile outFd fd _ _ => [outFd, fd]
  | .dup3 oldFd newFd => [oldFd, newFd]

/-- Those that have to be open. -/
def sources : DescriptorCall → List Word
  | .dup3 oldFd _ => [oldFd]
  | call => call.descriptors

/-- A descriptor is not in the table, or is not open where it has to be. -/
def Bad (files : FileTable) (call : DescriptorCall) : Prop :=
  (∃ fd ∈ call.descriptors, maxFilesNr ≤ fd.toNat) ∨
    ∃ fd ∈ call.sources, ¬ GoodDescriptor files fd

/-- `MAX_FILES_NR` reaches a check. -/
def ReachesEnd (files : FileTable) : DescriptorCall → Prop
  | .close fd | .read fd _ _ | .write fd _ _ | .writev fd _ _ _ | .ioctl fd _ _
  | .getdents64 fd _ _ | .lseek fd _ _ | .dup fd => fd.toNat = maxFilesNr
  | .fnctl fd cmd _ => fd.toNat = maxFilesNr ∧ cmd.toNat ∈ [0, 1, 2, 3, 1030]
  | .sendfile outFd fd _ _ =>
      fd.toNat = maxFilesNr ∨ GoodDescriptor files fd ∧ outFd.toNat = maxFilesNr
  | .dup3 oldFd newFd =>
      oldFd.toNat = maxFilesNr ∨ GoodDescriptor files oldFd ∧ newFd.toNat = maxFilesNr

end DescriptorCall

/-- The call accesses the table inside its bounds alone, and refuses bad descriptors. -/
structure DescriptorSafe (host : FdRequest → HostAnswer) (c : CallContext)
    (call : DescriptorCall) : Prop where
  inside : ∀ i ∈ (call.run host c).2.accessed, i < maxFilesNr
  refused : call.Bad c.files → ∃ code : Word, (call.run host c).1 = .ok code ∧ code.toInt < 0 ∧
    (call.run host c).2.cells = c.files

/-! ## The check of a descriptor -/

namespace TableM

variable {fd code : Word} {body : TableM Word} {a : Traced maxFilesNr File} {bad : Prop}

/-- What is expected of the code of a call. -/
structure Safe (bad : Prop) (m : TableM Word) (a : Traced maxFilesNr File) : Prop where
  inside : (TracedM.outcome m a).2.Inside
  refused : bad → ∃ code : Word, (TracedM.outcome m a).1 = .ok code ∧ code.toInt < 0 ∧
    (TracedM.outcome m a).2.cells = a.cells

/-- The check refuses a descriptor, or lets the call go on. -/
theorem guarded_cases (code : Word) (body : TableM Word) (a : Traced maxFilesNr File)
    (hne : fd.toNat ≠ maxFilesNr) :
    (¬ GoodDescriptor a.cells fd ∧ ∃ a', a'.cells = a.cells ∧ (a.Inside → a'.Inside) ∧
      TracedM.outcome (guarded fd code body) a = (.ok code, a')) ∨
    (GoodDescriptor a.cells fd ∧ TracedM.outcome (guarded fd code body) a =
      TracedM.outcome body ⟨a.cells, a.accessed ++ [fd.toNat]⟩) := by
  unfold guarded
  by_cases hgt : fd.toNat > maxFilesNr
  · rw [if_pos hgt]
    exact Or.inl ⟨fun hgood => Nat.lt_asymm hgt hgood.1, a, rfl, id, rfl⟩
  · have hlt : fd.toNat < maxFilesNr := Nat.lt_of_le_of_ne (Nat.not_lt.mp hgt) hne
    have hread := TracedM.outcome_read (a := a) ⟨fd.toNat, hlt⟩
    rw [if_neg hgt, entry, TracedM.outcome_bind_ok hread]
    cases hvalid : (a.cells ⟨fd.toNat, hlt⟩).valid with
    | true => exact Or.inr ⟨⟨hlt, hvalid⟩, rfl⟩
    | false =>
      refine Or.inl ⟨fun hgood => ?_, ⟨a.cells, a.accessed ++ [fd.toNat]⟩, rfl,
        TracedM.Within.access hlt, rfl⟩
      rw [hgood.2] at hvalid
      cases hvalid

theorem guarded_good (h : GoodDescriptor a.cells fd) :
    TracedM.outcome (guarded fd code body) a =
      TracedM.outcome body ⟨a.cells, a.accessed ++ [fd.toNat]⟩ := by
  rcases guarded_cases code body a (Nat.ne_of_lt h.1) with
    ⟨hbad, -⟩ | ⟨-, houtcome⟩
  · exact absurd h hbad
  · exact houtcome

/-- The check lets `MAX_FILES_NR` pass. -/
theorem guarded_end (h : fd.toNat = maxFilesNr) :
    TracedM.outcome (guarded fd code body) a =
      (.error .outOfBounds, ⟨a.cells, a.accessed ++ [maxFilesNr]⟩) := by
  have hread := TracedM.outcome_read_outside (a := a) (Nat.le_of_eq h.symm)
  rw [guarded, if_neg (Nat.not_lt.mpr (Nat.le_of_eq h)), entry, TracedM.outcome_bind_error hread, h]

theorem not_inside_end {cells : FileTable} {accessed : List Nat} :
    ¬ Traced.Inside (⟨cells, accessed ++ [maxFilesNr]⟩ : Traced maxFilesNr File) := by
  intro h
  exact Nat.lt_irrefl _ (h maxFilesNr (List.mem_append_right _ (List.mem_singleton.mpr rfl)))

theorem guarded_safe (hcode : code.toInt < 0) (ha : a.Inside) (hne : fd.toNat ≠ maxFilesNr)
    (hbody : GoodDescriptor a.cells fd → Safe bad body ⟨a.cells, a.accessed ++ [fd.toNat]⟩) :
    Safe bad (guarded fd code body) a := by
  rcases guarded_cases code body a hne with
    ⟨-, a', hcells, hinside, houtcome⟩ | ⟨hgood, houtcome⟩
  · constructor
    · rw [houtcome]
      exact hinside ha
    · intro _
      exact ⟨code, by rw [houtcome], hcode, by rw [houtcome, hcells]⟩
  · obtain ⟨hinside, hrefused⟩ := hbody hgood
    constructor
    · rw [houtcome]
      exact hinside
    · rw [houtcome]
      exact hrefused

theorem safe_of_within (h : TracedM.Within body) (ha : a.Inside) (hbad : ¬ bad) :
    Safe bad body a :=
  ⟨h a ha, fun h => absurd h hbad⟩

/-! ## Code that stays inside the table -/

theorem entry_within (h : fd.toNat < maxFilesNr) : (entry fd).Within := .read h

theorem findFree_within (l : List (Fin maxFilesNr)) : (findFree l).Within := by
  induction l with
  | nil => exact .pure none
  | cons i rest ih =>
    refine .bind (.read i.isLt) fun f => ?_
    split
    next => exact ih
    next => exact .bind (.write i.isLt _) fun _ => .pure _

theorem deallocate_within {i : Nat} (h : i < maxFilesNr) : (deallocateFileDescriptor i).Within :=
  .bind (.read h) fun _ => .bind (.lift _) fun _ => .write h _

theorem guarded_within (h : fd.toNat < maxFilesNr) (hbody : TracedM.Within body) :
    (guarded fd code body).Within := by
  unfold guarded
  split
  next => exact .pure code
  next =>
    refine .bind (entry_within h) fun f => ?_
    split
    next => exact hbody
    next => exact .pure code

section Bodies

variable (host : FdRequest → HostAnswer)

theorem fillDuplicate_within (i : Fin maxFilesNr) (h : fd.toNat < maxFilesNr) (hostFd : Int) :
    (fillDuplicate i fd hostFd).Within :=
  .bind (.read i.isLt) fun _ => .bind (entry_within h) fun _ =>
    .bind (.write i.isLt _) fun _ => .pure _

theorem doClose_within (h : fd.toNat < maxFilesNr) : (doClose host fd).Within :=
  guarded_within h <| .bind (entry_within h) fun _ =>
    .bind (deallocate_within h) fun _ => .pure _

theorem closeTarget_within (h : fd.toNat < maxFilesNr) : (closeTarget host fd).Within := by
  refine .bind (entry_within h) fun target => ?_
  split
  next => exact .bind (doClose_within host h) fun _ => .pure ()
  next => exact .pure ()

/-- A call of one descriptor. -/
theorem single_safe (hcode : code.toInt < 0) (ha : a.Inside) (hne : fd.toNat ≠ maxFilesNr)
    (hbad : bad → ¬ GoodDescriptor a.cells fd)
    (hbody : fd.toNat < maxFilesNr → TracedM.Within body) : Safe bad (guarded fd code body) a := by
  refine guarded_safe hcode ha hne fun hgood => ?_
  exact safe_of_within (hbody hgood.1) (TracedM.Within.access hgood.1 ha) fun h => hbad h hgood

end Bodies

end TableM

/-! ## The calls -/

section Calls

open TableM

variable {host : FdRequest → HostAnswer} {c : CallContext} {call : DescriptorCall} {fd : Word}

theorem DescriptorCall.bad_single {files : FileTable} (hdescriptors : call.descriptors = [fd])
    (hsources : call.sources = [fd]) (h : call.Bad files) : ¬ GoodDescriptor files fd := by
  unfold DescriptorCall.Bad at h
  rw [hdescriptors, hsources] at h
  simp only [List.mem_singleton, exists_eq_left] at h
  rcases h with hge | hsource
  · exact fun hgood => Nat.not_lt.mpr hge hgood.1
  · exact hsource

theorem inside_nil (files : FileTable) :
    Traced.Inside (⟨files, []⟩ : Traced maxFilesNr File) := by
  intro i hi
  cases hi

theorem callFnctl_safe {cmd arg : Word} {files : FileTable} {bad : Prop}
    (hne : cmd.toNat ∈ [0, 1, 2, 3, 1030] → fd.toNat ≠ maxFilesNr)
    (hbad : bad → ¬ GoodDescriptor files fd) :
    Safe bad (callFnctl host fd cmd arg) ⟨files, []⟩ := by
  have honHost : ∀ (cmd : Word) (arg : Option Word), fd.toNat ≠ maxFilesNr →
      Safe bad (doFcntlOnHost host fd cmd arg) ⟨files, []⟩ := by
    intro cmd arg hne
    exact single_safe (by decide) (inside_nil _) hne hbad fun hlt =>
      .bind (entry_within hlt) fun _ => .pure _
  have hduplicate : fd.toNat ≠ maxFilesNr →
      Safe bad (TableM.doFcntlDuplicateFd host fd cmd arg) ⟨files, []⟩ := by
    intro hne
    refine single_safe (by decide) (inside_nil _) hne hbad fun hlt => ?_
    refine .bind (findFree_within _) fun found => ?_
    cases found with
    | none => exact .pure _
    | some i =>
      refine .bind (entry_within hlt) fun f => ?_
      cases host (.fcntl f.hostFd cmd (some arg)) with
      | fails errno => exact .bind (deallocate_within i.isLt) fun _ => .pure _
      | returns hostFd => exact fillDuplicate_within i hlt hostFd
  unfold callFnctl
  split
  next h => exact hduplicate (hne (by simp [h]))
  next h => exact hduplicate (hne (by simp [h]))
  next h => exact honHost 1 none (hne (by simp [h]))
  next h => exact honHost 3 none (hne (by simp [h]))
  next h => exact honHost 2 (some arg) (hne (by simp [h]))
  next => exact ⟨inside_nil _, fun _ => ⟨enosys, rfl, by decide, rfl⟩⟩

theorem doSendfile_safe {outFd : Word} {offset : Option HostAddress} {count : Word}
    {files : FileTable} {bad : Prop} (hne : fd.toNat ≠ maxFilesNr)
    (hout : GoodDescriptor files fd → outFd.toNat ≠ maxFilesNr)
    (hbad : bad → ¬ (GoodDescriptor files fd ∧ GoodDescriptor files outFd)) :
    Safe bad (doSendfile host outFd fd offset count) ⟨files, []⟩ := by
  refine guarded_safe (by decide) (inside_nil _) hne fun hfd => ?_
  have hinside : Traced.Inside (⟨files, [] ++ [fd.toNat]⟩ : Traced maxFilesNr File) :=
    TracedM.Within.access hfd.1 (inside_nil files)
  refine single_safe (by decide) hinside (hout hfd) (fun h hgood => hbad h ⟨hfd, hgood⟩) ?_
  exact fun hlt => .bind (entry_within hlt) fun _ => .bind (entry_within hfd.1) fun _ => .pure _

theorem callDup3_safe {oldFd newFd : Word} {files : FileTable} {bad : Prop}
    (hne : oldFd.toNat ≠ maxFilesNr)
    (hnew : GoodDescriptor files oldFd → newFd.toNat ≠ maxFilesNr)
    (hbad : bad → ¬ GoodDescriptor files oldFd ∨ maxFilesNr ≤ newFd.toNat) :
    Safe bad (TableM.callDup3 host oldFd newFd) ⟨files, []⟩ := by
  refine guarded_safe (by decide) (inside_nil _) hne fun hold => ?_
  have hinside : Traced.Inside (⟨files, [] ++ [oldFd.toNat]⟩ : Traced maxFilesNr File) :=
    TracedM.Within.access hold.1 (inside_nil files)
  split
  next => exact ⟨hinside, fun _ => ⟨ebadf, rfl, by decide, rfl⟩⟩
  next hle =>
    have hlt : newFd.toNat < maxFilesNr := Nat.lt_of_le_of_ne (Nat.not_lt.mp hle) (hnew hold)
    refine safe_of_within ?_ hinside fun h => ?_
    · split
      next => exact .pure 0
      next =>
        refine .bind (closeTarget_within host hlt) fun _ => .bind (entry_within hlt) fun _ => ?_
        exact .bind (entry_within hold.1) fun _ => .bind (.write hlt _) fun _ => .pure _
    · rcases hbad h with hbad | hge
      · exact hbad hold
      · exact Nat.not_lt.mpr hge hlt

/-- A call that `MAX_FILES_NR` does not reach a check of. -/
theorem DescriptorCall.code_safe (host : FdRequest → HostAnswer) (h : ¬ call.ReachesEnd c.files) :
    Safe (call.Bad c.files) (call.code host c) ⟨c.files, []⟩ := by
  cases call with
  | close fd =>
    exact single_safe (by decide) (inside_nil _) h (bad_single rfl rfl) fun hlt =>
      .bind (entry_within hlt) fun _ => .bind (deallocate_within hlt) fun _ => .pure _
  | read fd buf nrRead =>
    exact single_safe (by decide) (inside_nil _) h (bad_single rfl rfl) fun hlt =>
      .bind (entry_within hlt) fun _ => .pure _
  | write fd buf nrWrite =>
    exact single_safe (by decide) (inside_nil _) h (bad_single rfl rfl) fun hlt =>
      .bind (entry_within hlt) fun _ => .pure _
  | writev fd guestIovs iovcnt mallocReturns =>
    refine single_safe (by decide) (inside_nil _) h (bad_single rfl rfl) fun hlt => ?_
    split
    next => exact .bind (.lift _) fun _ => .bind (entry_within hlt) fun _ => .pure _
    next => exact .pure _
  | ioctl fd request argpAddr =>
    exact single_safe (by decide) (inside_nil _) h (bad_single rfl rfl) fun hlt =>
      .bind (.lift _) fun _ => .bind (entry_within hlt) fun _ => .pure _
  | getdents64 fd dirpAddr count =>
    exact single_safe (by decide) (inside_nil _) h (bad_single rfl rfl) fun hlt =>
      .bind (.lift _) fun _ => .bind (entry_within hlt) fun _ => .pure _
  | lseek fd offset whence =>
    exact single_safe (by decide) (inside_nil _) h (bad_single rfl rfl) fun hlt =>
      .bind (entry_within hlt) fun _ => .pure _
  | dup fd =>
    refine single_safe (by decide) (inside_nil _) h (bad_single rfl rfl) fun hlt => ?_
    refine .bind (findFree_within _) fun found => ?_
    cases found with
    | none => exact .pure _
    | some i => exact .bind (entry_within hlt) fun _ => fillDuplicate_within i hlt _
  | fnctl fd cmd arg =>
    exact callFnctl_safe (fun hcmd hfd => h ⟨hfd, hcmd⟩) (bad_single rfl rfl)
  | sendfile outFd fd offset count =>
    refine doSendfile_safe (fun hfd => h (Or.inl hfd))
      (fun hgood hout => h (Or.inr ⟨hgood, hout⟩)) ?_
    rintro hbad ⟨hfd, hout⟩
    simp only [DescriptorCall.Bad, DescriptorCall.descriptors, DescriptorCall.sources,
      List.mem_cons, List.not_mem_nil, or_false, exists_eq_or_imp, exists_eq_left] at hbad
    rcases hbad with (hge | hge) | hbad | hbad
    · exact Nat.not_lt.mpr hge hout.1
    · exact Nat.not_lt.mpr hge hfd.1
    · exact hbad hout
    · exact hbad hfd
  | dup3 oldFd newFd =>
    refine callDup3_safe (fun hold => h (Or.inl hold))
      (fun hgood hnew => h (Or.inr ⟨hgood, hnew⟩)) fun hbad => ?_
    simp only [DescriptorCall.Bad, DescriptorCall.descriptors, DescriptorCall.sources,
      List.mem_cons, List.not_mem_nil, or_false, exists_eq_or_imp, exists_eq_left] at hbad
    rcases hbad with (hge | hge) | hbad
    · exact Or.inl fun hgood => Nat.not_lt.mpr hge hgood.1
    · exact Or.inr hge
    · exact Or.inl hbad

/-- A call that `MAX_FILES_NR` reaches a check of leaves the table. -/
theorem DescriptorCall.code_leaves (h : call.ReachesEnd c.files) :
    ¬ (TracedM.outcome (call.code host c) ⟨c.files, []⟩).2.Inside := by
  have hfirst : ∀ {fd code : Word} {body : TableM Word}, fd.toNat = maxFilesNr →
      ¬ (TracedM.outcome (guarded fd code body) ⟨c.files, []⟩).2.Inside := by
    intro fd code body hfd
    rw [guarded_end hfd]
    exact not_inside_end
  cases call with
  | close fd | read fd | write fd | writev fd | ioctl fd | getdents64 fd | lseek fd | dup fd =>
    exact hfirst h
  | fnctl fd cmd arg =>
    obtain ⟨hfd, hcmd⟩ := h
    simp only [List.mem_cons, List.not_mem_nil, or_false] at hcmd
    rcases hcmd with hcmd | hcmd | hcmd | hcmd | hcmd
    all_goals
      simp only [DescriptorCall.code, callFnctl, hcmd]
      exact hfirst hfd
  | sendfile outFd fd offset count =>
    rcases h with hfd | ⟨hgood, hout⟩
    · exact hfirst hfd
    · simp only [DescriptorCall.code, doSendfile]
      rw [guarded_good hgood, guarded_end hout]
      exact not_inside_end
  | dup3 oldFd newFd =>
    rcases h with hold | ⟨hgood, hnew⟩
    · exact hfirst hold
    · have hle : ¬ newFd.toNat > maxFilesNr := Nat.not_lt.mpr (Nat.le_of_eq hnew)
      have hne : newFd ≠ oldFd := by
        rintro rfl
        exact absurd hnew (Nat.ne_of_lt hgood.1)
      simp only [DescriptorCall.code, TableM.callDup3]
      rw [guarded_good hgood, if_neg hle, if_neg hne, TableM.closeTarget, bind_assoc, entry,
        TracedM.outcome_bind_error (TracedM.outcome_read_outside (Nat.le_of_eq hnew.symm)), hnew]
      exact not_inside_end

end Calls

/-- A call is safe if and only if `MAX_FILES_NR` reaches none of its checks. -/
theorem descriptorSafe_iff (host : FdRequest → HostAnswer) (c : CallContext)
    (call : DescriptorCall) : DescriptorSafe host c call ↔ ¬ call.ReachesEnd c.files := by
  constructor
  · intro hsafe hreaches
    exact DescriptorCall.code_leaves hreaches hsafe.inside
  · intro h
    obtain ⟨hinside, hrefused⟩ := DescriptorCall.code_safe host h
    exact ⟨hinside, hrefused⟩

/-- A context without memory, in which no descriptor is open. -/
def closedContext : CallContext := ⟨fun _ => none, .empty, .zero, .empty⟩

/-- `do_close` of `MAX_FILES_NR` looks at an entry behind the array. -/
theorem close_reads_behind_table :
    ¬ DescriptorSafe (fun _ => .returns 0) closedContext (.close 128) := by
  intro h
  exact absurd (h.inside 128 (by decide)) (by decide)

/-! ## The minimum of `F_DUPFD` -/

/-- `call_fnctl` returns the lowest descriptor from the minimum on that is free, opens it on
what the host returned for the source, and changes no other slot.  If none is free, it
returns an error and changes nothing. -/
structure HonoursMinimum (host : FdRequest → HostAnswer) (c : CallContext) (fd cmd minimum : Word)
    (source : File) (hostFd : Nat) : Prop where
  takes : ∀ i, c.files.LeastFree minimum.toNat i → ∃ f : File,
    TracedM.erase ((DescriptorCall.fnctl fd cmd minimum).run host c) =
      .ok (BitVec.ofNat 32 i, Function.update c.files i f) ∧
    f.valid = true ∧ f.fd = i ∧ f.hostFd = hostFd ∧ f.hostCpath = source.hostCpath
  full : (∀ i : Fin maxFilesNr, minimum.toNat ≤ i → (c.files i).valid = true) → ∃ code : Word,
    TracedM.erase ((DescriptorCall.fnctl fd cmd minimum).run host c) = .ok (code, c.files) ∧
      code.toInt < 0

section Minimum

variable {host : FdRequest → HostAnswer} {c : CallContext} {fd cmd minimum : Word}
  {i j : Fin maxFilesNr} {hostFd : Nat}

theorem callFnctl_duplicate (hcmd : cmd.toNat = 0 ∨ cmd.toNat = 1030) :
    TableM.callFnctl host fd cmd minimum = TableM.doFcntlDuplicateFd host fd cmd minimum := by
  unfold TableM.callFnctl
  rcases hcmd with hcmd | hcmd
  · simp only [hcmd]
  · simp only [hcmd]

/-- `F_DUPFD` without the indices. -/
theorem fnctl_erase (host : FdRequest → HostAnswer) (c : CallContext) (fd cmd minimum : Word)
    (hcmd : cmd.toNat = 0 ∨ cmd.toNat = 1030) (hfd : fd.toNat = j) :
    TracedM.erase ((DescriptorCall.fnctl fd cmd minimum).run host c) =
      doFcntlDuplicateFd c.files fd (host (.fcntl (c.files j).hostFd cmd (some minimum))) := by
  rw [DescriptorCall.run, DescriptorCall.code, callFnctl_duplicate hcmd,
    TableM.doFcntlDuplicateFd_refines host fd cmd minimum]
  dsimp only
  rw [TableM.hostFdOf_eq hfd]

theorem duplicate_fields (i : Fin maxFilesNr) (source : File) (hostFd : Nat) :
    (duplicateOf i source hostFd).valid = true ∧ (duplicateOf i source hostFd).fd = i ∧
      (duplicateOf i source hostFd).hostFd = hostFd ∧
      (duplicateOf i source hostFd).hostCpath = source.hostCpath := by
  unfold duplicateOf File.copyPath
  cases hpath : source.hostCpath with
  | none => exact ⟨rfl, rfl, rfl, rfl⟩
  | some path => exact ⟨rfl, rfl, rfl, rfl⟩

/-- Slots below the minimum that are not free do not count. -/
theorem leastFree_minimum {files : FileTable} {m : Nat}
    (hbelow : ∀ i : Fin maxFilesNr, i < m → (files i).valid = true) (h : files.LeastFree m i) :
    files.LeastFree 0 i := by
  refine ⟨Nat.zero_le _, h.free, fun j _ hj => ?_⟩
  by_cases hm : m ≤ j
  · exact h.least j hm hj
  · exact hbelow j (Nat.not_le.mp hm)

/-- Where a slot below the minimum is free, the lowest slot is below it. -/
theorem leastFree_below {files : FileTable} {m : Nat} {k : Fin maxFilesNr} (hk : k < m)
    (hfree : (files k).valid = false) (h : files.LeastFree 0 i) : i < m := by
  refine Nat.lt_of_le_of_lt (Nat.not_lt.mp fun hlt => ?_) hk
  have hvalid := h.least k (Nat.zero_le _) hlt
  rw [hfree] at hvalid
  cases hvalid

theorem toNat_descriptor (i : Fin maxFilesNr) : (BitVec.ofNat 32 i).toNat = i := by
  rw [BitVec.toNat_ofNat]
  exact Nat.mod_eq_of_lt (Nat.lt_trans i.isLt (by decide))

theorem toInt_descriptor (i : Fin maxFilesNr) : 0 ≤ (BitVec.ofNat 32 i).toInt := by
  rw [BitVec.toInt_eq_toNat_of_lt]
  · exact Int.natCast_nonneg _
  · rw [toNat_descriptor]
    have hi : i.val < 128 := i.isLt
    omega

/-- `F_DUPFD` honours its minimum if and only if no slot below the minimum is free. -/
theorem honoursMinimum_iff (hcmd : cmd.toNat = 0 ∨ cmd.toNat = 1030) (hfd : fd.toNat = j)
    (hvalid : (c.files j).valid = true)
    (hhost : host (.fcntl (c.files j).hostFd cmd (some minimum)) = .returns hostFd) :
    HonoursMinimum host c fd cmd minimum (c.files j) hostFd ↔
      ∀ i : Fin maxFilesNr, i < minimum.toNat → (c.files i).valid = true := by
  have herase := fnctl_erase host c fd cmd minimum hcmd hfd
  rw [hhost] at herase
  constructor
  · intro h i hi
    by_contra hfree
    rw [Bool.not_eq_true] at hfree
    rcases c.files.full_or_leastFree with hfull | ⟨k, hk⟩
    · rw [hfull i] at hfree
      cases hfree
    have hlow := leastFree_below hi hfree hk
    rw [doFcntlDuplicateFd_free hfd hvalid hk] at herase
    by_cases hany : ∃ i : Fin maxFilesNr, minimum.toNat ≤ i ∧ (c.files i).valid = false
    · -- the slot that should be taken is another one
      obtain ⟨i, hle, hfree⟩ := hany
      obtain ⟨i, hi⟩ := FileTable.exists_leastFree hle hfree
      obtain ⟨f, htakes, -⟩ := h.takes i hi
      rw [herase] at htakes
      have hsame := congrArg BitVec.toNat (Prod.ext_iff.mp (Except.ok.inj htakes)).1
      rw [toNat_descriptor, toNat_descriptor] at hsame
      exact Nat.not_le.mpr hlow (hsame ▸ hi.le)
    · -- the call should fail
      have habove : ∀ i : Fin maxFilesNr, minimum.toNat ≤ i → (c.files i).valid = true := by
        intro i hi
        by_contra hfree
        exact hany ⟨i, hi, Bool.not_eq_true _ ▸ hfree⟩
      obtain ⟨code, hfull, hcode⟩ := h.full habove
      rw [herase] at hfull
      have hsame : BitVec.ofNat 32 k = code := (Prod.ext_iff.mp (Except.ok.inj hfull)).1
      rw [← hsame] at hcode
      exact absurd (toInt_descriptor k) (Int.not_le.mpr hcode)
  · intro hbelow
    constructor
    · intro i hi
      rw [doFcntlDuplicateFd_free hfd hvalid (leastFree_minimum hbelow hi)] at herase
      exact ⟨_, herase, duplicate_fields i (c.files j) hostFd⟩
    · intro habove
      have hfull : c.files.Full := by
        intro i
        by_cases hi : i < minimum.toNat
        · exact hbelow i hi
        · exact habove i (Nat.not_lt.mp hi)
      rw [doFcntlDuplicateFd_full hfd hvalid hfull] at herase
      exact ⟨enomem, herase, by decide⟩

end Minimum

/-- The standard descriptors are open. -/
def standardContext : CallContext :=
  { closedContext with
    files := fun i => if i.val < 3 then { File.allocated i with hostFd := i.val + 3 } else .zero }

/-- With the standard descriptors open, a minimum that is not above them is honoured. -/
theorem honoursMinimum_standard :
    HonoursMinimum (fun _ => .returns 6) standardContext 0 0 2 (standardContext.files 0) 6 := by
  have hhost : (fun _ : FdRequest => HostAnswer.returns 6)
      (.fcntl (standardContext.files 0).hostFd 0 (some 2)) = .returns 6 := rfl
  exact (honoursMinimum_iff (Or.inl rfl) rfl rfl hhost).mpr (by decide)

/-- With the standard descriptors open, a duplicate from 10 on gets the descriptor 3. -/
theorem minimum_goes_to_host :
    TracedM.erase ((DescriptorCall.fnctl 0 0 10).run (fun _ => .returns 10) standardContext) =
        .ok (3, Function.update standardContext.files 3
          (duplicateOf 3 (standardContext.files 0) 10)) ∧
      ¬ HonoursMinimum (fun _ => .returns 10) standardContext 0 0 10
        (standardContext.files 0) 10 := by
  have hfree : standardContext.files.LeastFree 0 3 := ⟨by decide, by decide, by decide⟩
  have herase := fnctl_erase (j := 0) (fun _ => .returns 10) standardContext 0 0 10
    (Or.inl rfl) rfl
  have hfd : (0 : Word).toNat = (0 : Fin maxFilesNr) := rfl
  rw [doFcntlDuplicateFd_free hfd rfl hfree] at herase
  refine ⟨herase, fun h => ?_⟩
  obtain ⟨f, htakes, -⟩ := h.takes 10 ⟨by decide, by decide, by decide⟩
  rw [herase] at htakes
  have hsame : (3 : Word) = 10 := (Prod.ext_iff.mp (Except.ok.inj htakes)).1
  exact absurd hsame (by decide)

end Hyrule
