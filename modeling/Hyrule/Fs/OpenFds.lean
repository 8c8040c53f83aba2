import Hyrule.Fs.Files
import Hyrule.Lib.Ownership

/-!
# File tables and the open descriptors of the host

What the calls of `vfs.c` and `duplicate_files` ask of the host: they open
descriptors, which the host may refuse and otherwise picks among those that are not
in use, and they close descriptors.  The valid entries of a table own the
descriptors that they hold.  A call on a table is then a `Transfer`: it closes what
the table owns, and adds what was opened for it.

`call_dup`, `call_dup3` and `duplicate_files` do not look at what the host answers.
For these the host must not refuse.
-/

namespace Hyrule

open Lib Lib.Result

/-! ## The host -/

/-- The descriptors that are open on the host. -/
abbrev OpenFds := Int → Option Unit

/-- What a call asks of the host. -/
inductive HostEvent where
  /-- `open`, `dup` or `fcntl`, with the answer. -/
  | opens (answer : HostAnswer)
  | closes (hostFd : Int)

namespace HostEvent

/-- The host refuses to open. -/
def Refused : HostEvent → Prop
  | .opens (.fails _) => True
  | .opens (.returns _) => False
  | .closes _ => False

/-- The host picks a descriptor that is not in use. -/
def Admitted (fds : OpenFds) : HostEvent → Prop
  | .opens (.fails _) => True
  | .opens (.returns fd) => fds fd = none
  | .closes _ => True

/-- The open descriptors after an event. -/
def run (fds : OpenFds) : HostEvent → OpenFds
  | .opens (.fails _) => fds
  | .opens (.returns fd) => Function.update fds fd (some ())
  | .closes fd => Function.update fds fd none

end HostEvent

/-- The open descriptors after events. -/
def runEvents (fds : OpenFds) (events : List HostEvent) : OpenFds := events.foldl HostEvent.run fds

/-- The host never picks a descriptor that is in use. -/
def Admits (fds : OpenFds) : List HostEvent → Prop
  | [] => True
  | e :: events => e.Admitted fds ∧ Admits (e.run fds) events

/-! ## What the calls ask -/

/-- The entry of a descriptor, if it is valid. -/
def FileTable.valid? (t : FileTable) (fd : Word) : Option File :=
  if h : fd.toNat < maxFilesNr then
    if (t ⟨fd.toNat, h⟩).valid then some (t ⟨fd.toNat, h⟩) else none
  else none

/-- What closing a descriptor asks. -/
def FileTable.closeEvents (t : FileTable) (fd : Word) : List HostEvent :=
  match t.valid? fd with
  | none => []
  | some f => [.closes f.hostFd]

/-- A new descriptor is opened, if there is an entry for it. -/
def FileTable.allocateEvents (t : FileTable) (answer : HostAnswer) : List HostEvent :=
  match allocateFileDescriptor t with
  | none => []
  | some _ => [.opens answer]

/-- A new descriptor is opened for a duplicate, if there is an entry for it. -/
def FileTable.duplicateEvents (t : FileTable) (fd : Word) (answer : HostAnswer) :
    List HostEvent :=
  match t.valid? fd with
  | none => []
  | some _ => t.allocateEvents answer

/-- What a call on the table asks. -/
def FileCall.events (t : FileTable) : FileCall → List HostEvent
  | .openat _ _ _ _ answer => t.allocateEvents answer
  | .close fd _ => t.closeEvents fd
  | .dup fd answer | .fcntlDuplicateFd fd answer => t.duplicateEvents fd answer
  | .dup3 oldFd newFd _ answer =>
      match t.valid? oldFd with
      | none => []
      | some _ =>
          if newFd.toNat > maxFilesNr ∨ newFd = oldFd then []
          else t.closeEvents newFd ++ [.opens answer]

/-- What the loop of `duplicate_files` asks for some entries. -/
def copyEntries (t : FileTable) (answers : Fin maxFilesNr → HostAnswer)
    (l : List (Fin maxFilesNr)) : List HostEvent :=
  l.filterMap fun i => if (t i).valid then some (.opens (answers i)) else none

/-- What `duplicate_files` asks. -/
def copyEvents (t : FileTable) (answers : Fin maxFilesNr → HostAnswer) : List HostEvent :=
  copyEntries t answers (List.finRange maxFilesNr)

/-! ## What a table owns -/

/-- The host descriptors of the valid entries. -/
def FileTable.hostFds (t : FileTable) : List (Int × Unit) :=
  (List.finRange maxFilesNr).filterMap fun i =>
    if (t i).valid then some ((t i).hostFd, ()) else none

/-- A valid entry has its descriptor, a path and a host descriptor, and is a regular
file. -/
structure File.WellSet (f : File) (i : Fin maxFilesNr) : Prop where
  fd : f.fd = i
  path : f.hostCpath ≠ none
  regular : f.fileType = .regular
  hostFd : 0 ≤ f.hostFd

/-- The valid entries of the table are well set. -/
def FileTable.WellSet (t : FileTable) : Prop := ∀ i, (t i).valid = true → (t i).WellSet i

section HostFds

variable {t : FileTable} {i : Fin maxFilesNr} {f : File}

/-- An entry that becomes valid adds its host descriptor. -/
theorem hostFds_validate (hi : (t i).valid = false) (hf : f.valid = true) :
    FileTable.hostFds (Function.update t i f) |>.Perm ((f.hostFd, ()) :: t.hostFds) := by
  obtain ⟨l₁, l₂, hl⟩ := List.append_of_mem (List.mem_finRange i)
  have hnodup := List.nodup_finRange maxFilesNr
  rw [hl] at hnodup
  have hnot := List.nodup_middle.mp hnodup
  obtain ⟨hnot, -⟩ := List.nodup_cons.mp hnot
  rw [List.mem_append, not_or] at hnot
  have hsame : ∀ l : List (Fin maxFilesNr), i ∉ l →
      (l.filterMap fun j => if (Function.update t i f j).valid then
        some ((Function.update t i f j).hostFd, ()) else none) =
      l.filterMap fun j => if (t j).valid then some ((t j).hostFd, ()) else none := by
    intro l hl
    refine List.filterMap_congr fun j hj => ?_
    have hne : j ≠ i := fun heq => hl (heq ▸ hj)
    rw [Function.update_of_ne hne]
  unfold FileTable.hostFds
  rw [hl, List.filterMap_append, List.filterMap_append, List.filterMap_cons, List.filterMap_cons,
    hsame l₁ hnot.1, hsame l₂ hnot.2]
  simp only [Function.update_self, hf, hi, if_true, Bool.false_eq_true, if_false]
  exact List.perm_middle

/-- An entry that becomes invalid takes its host descriptor away. -/
theorem hostFds_invalidate (hi : (t i).valid = true) (hf : f.valid = false) :
    t.hostFds.Perm (((t i).hostFd, ()) :: FileTable.hostFds (Function.update t i f)) := by
  have hperm := hostFds_validate (t := Function.update t i f) (i := i) (f := t i)
    (by rwa [Function.update_self]) hi
  rwa [Function.update_idem, Function.update_eq_self] at hperm

/-- An invalid entry does not count. -/
theorem hostFds_invalid (hi : (t i).valid = false) (hf : f.valid = false) :
    FileTable.hostFds (Function.update t i f) = t.hostFds := by
  refine List.filterMap_congr fun j _ => ?_
  by_cases heq : j = i
  · rw [heq, Function.update_self, hf, hi]
    rfl
  · rw [Function.update_of_ne heq]

end HostFds

/-! ## What a call does to a table -/

/-- A change of the open descriptors by the owner of a table, which keeps the table well
set. -/
structure TableStep (fds : OpenFds) (t : FileTable) (fds' : OpenFds) (t' : FileTable) : Prop where
  transfer : Transfer id True fds t.hostFds fds' t'.hostFds
  wellSet : t.WellSet → t'.WellSet

namespace TableStep

variable {fds fds' fds'' : OpenFds} {t t' t'' : FileTable} {i : Fin maxFilesNr} {f : File}

theorem refl (fds : OpenFds) (t : FileTable) : TableStep fds t fds t := ⟨.refl _ _, id⟩

theorem trans (h : TableStep fds t fds' t') (h' : TableStep fds' t' fds'' t'') :
    TableStep fds t fds'' t'' :=
  ⟨h.transfer.trans h'.transfer, h'.wellSet ∘ h.wellSet⟩

/-- A descriptor is opened for an entry that is not valid. -/
theorem opens {fd : Nat} (hi : (t i).valid = false) (hfd : fds fd = none) (hvalid : f.valid = true)
    (hhostFd : f.hostFd = fd) (hf : t.WellSet → f.WellSet i) :
    TableStep fds t (Function.update fds fd (some ())) (Function.update t i f) := by
  refine ⟨(Transfer.allocate () hfd).trans (.perm ?_), fun h j hj => ?_⟩
  · rw [← hhostFd]
    exact (hostFds_validate hi hvalid).symm
  · by_cases heq : j = i
    · rw [heq, Function.update_self]
      exact hf h
    · rw [Function.update_of_ne heq] at hj ⊢
      exact h j hj

/-- The descriptor of a valid entry is closed. -/
theorem closes (hi : (t i).valid = true) :
    TableStep fds t (Function.update fds (t i).hostFd none) (Function.update t i .zero) := by
  refine ⟨(Transfer.perm (hostFds_invalidate hi rfl)).trans (.free _ _ _), fun h j hj => ?_⟩
  by_cases heq : j = i
  · rw [heq, Function.update_self] at hj
    cases hj
  · rw [Function.update_of_ne heq] at hj ⊢
    exact h j hj

/-- An entry that is not valid is cleared. -/
theorem clears (hi : (t i).valid = false) : TableStep fds t fds (Function.update t i .zero) := by
  refine ⟨.perm ?_, fun h j hj => ?_⟩
  · rw [hostFds_invalid hi rfl]
  · by_cases heq : j = i
    · rw [heq, Function.update_self] at hj
      cases hj
    · rw [Function.update_of_ne heq] at hj ⊢
      exact h j hj

end TableStep

section Calls

variable {fds : OpenFds} {t t' : FileTable} {fd : Word} {answer : HostAnswer}

theorem allocateFileDescriptor_some {i : Fin maxFilesNr}
    (h : allocateFileDescriptor t = some (i, t')) :
    (t i).valid = false ∧
      t' = Function.update t i { File.zero with fd := i.val, valid := true } := by
  unfold allocateFileDescriptor at h
  split at h
  next => cases h
  next j hfind =>
    cases h
    exact ⟨by simpa using List.find?_some hfind, rfl⟩

/-- The entry of a descriptor of the table. -/
theorem file_eq {i : Fin maxFilesNr} (h : fd.toNat = i) : t.file fd = .ok (t i) := by
  obtain ⟨i, hi⟩ := i
  cases h
  exact dif_pos hi

/-- The table with the entry of a descriptor overwritten. -/
theorem setFile_eq {i : Fin maxFilesNr} (h : fd.toNat = i) (f : File) :
    t.setFile fd f = .ok (Function.update t i f) := by
  obtain ⟨i, hi⟩ := i
  cases h
  exact dif_pos hi

theorem valid?_eq {i : Fin maxFilesNr} (h : fd.toNat = i) :
    t.valid? fd = if (t i).valid then some (t i) else none := by
  obtain ⟨i, hi⟩ := i
  cases h
  exact dif_pos hi

theorem valid?_of_bad (h : isBadDescriptor t fd = .ok true) : t.valid? fd = none := by
  unfold isBadDescriptor at h
  unfold FileTable.valid?
  split at h
  next hgt => rw [dif_neg (Nat.not_lt.mpr (Nat.le_of_lt hgt))]
  next =>
    unfold FileTable.file at h
    split
    next hlt =>
      rw [dif_pos hlt] at h
      simp only [pure_eq_ok, ok_bind, Except.ok.injEq, Bool.not_eq_true'] at h
      rw [h]
      rfl
    next => rfl

theorem valid?_of_good (h : isBadDescriptor t fd = .ok false) :
    ∃ i : Fin maxFilesNr, fd.toNat = i ∧ (t i).valid = true ∧ t.valid? fd = some (t i) := by
  unfold isBadDescriptor at h
  split at h
  next => cases h
  next =>
    obtain ⟨f, hfile, h⟩ := bind_eq_ok.mp h
    unfold FileTable.file at hfile
    split at hfile
    next hlt =>
      cases hfile
      simp only [pure_eq_ok, Except.ok.injEq, Bool.not_eq_false'] at h
      exact ⟨⟨fd.toNat, hlt⟩, rfl, h, by rw [FileTable.valid?, dif_pos hlt, if_pos h]⟩
    next => cases hfile

/-- A new entry is filled with the answer of the host, or cleared if the host
refuses. -/
theorem allocate_step {i : Fin maxFilesNr} {t₁ : FileTable} (fill : Nat → File)
    (halloc : allocateFileDescriptor t = some (i, t₁))
    (hadmits : Admits fds [.opens answer])
    (hreturns : ∀ fd, answer = .returns fd → t' = Function.update t i (fill fd))
    (hfails : ∀ errno, answer = .fails errno → t' = Function.update t i .zero)
    (hfill : ∀ fd, (fill fd).valid = true ∧ (fill fd).hostFd = fd ∧
      (t.WellSet → (fill fd).WellSet i)) :
    TableStep fds t (runEvents fds [.opens answer]) t' := by
  obtain ⟨hi, -⟩ := allocateFileDescriptor_some halloc
  cases answer with
  | fails errno =>
    rw [hfails errno rfl]
    exact .clears hi
  | returns hostFd =>
    obtain ⟨hvalid, hhostFd, hwell⟩ := hfill hostFd
    rw [hreturns hostFd rfl]
    exact .opens hi hadmits.1 hvalid hhostFd hwell

theorem doOpenat_step {root cwd path : CString} {dirfd flags mode rv : Word}
    (h : doOpenat root cwd t dirfd path flags mode answer = .ok (rv, t'))
    (hadmits : Admits fds (t.allocateEvents answer)) :
    TableStep fds t (runEvents fds (t.allocateEvents answer)) t' := by
  obtain ⟨hostCpath, -, h⟩ := bind_eq_ok.mp h
  unfold FileTable.allocateEvents at hadmits ⊢
  cases halloc : allocateFileDescriptor t with
  | none =>
    rw [halloc] at h
    cases h
    exact .refl _ _
  | some new =>
    obtain ⟨i, t₁⟩ := new
    obtain ⟨-, ht₁⟩ := allocateFileDescriptor_some halloc
    rw [halloc] at h hadmits
    refine allocate_step (fun fd => ⟨i.val, fd, true, some hostCpath, flags, mode, .regular⟩)
      halloc hadmits ?_ ?_ fun fd => ⟨rfl, rfl, fun _ => ⟨rfl, by simp, rfl, Int.natCast_nonneg fd⟩⟩
    · rintro fd rfl
      cases h
      rw [ht₁, Function.update_idem, Function.update_self]
    · rintro errno rfl
      obtain ⟨t₂, hdealloc, h⟩ := bind_eq_ok.mp h
      cases h
      obtain ⟨-, -, hdealloc⟩ := bind_eq_ok.mp hdealloc
      cases hdealloc
      rw [ht₁, Function.update_idem]

theorem doClose_step {rv : Word} (h : doClose t fd answer = .ok (rv, t')) :
    TableStep fds t (runEvents fds (t.closeEvents fd)) t' := by
  obtain ⟨bad, hbad, h⟩ := bind_eq_ok.mp h
  unfold FileTable.closeEvents
  cases bad with
  | true =>
    cases h
    rw [valid?_of_bad hbad]
    exact .refl _ _
  | false =>
    obtain ⟨i, hfd, hvalid, hsome⟩ := valid?_of_good hbad
    obtain ⟨t₂, hset, h⟩ := bind_eq_ok.mp h
    cases h
    rw [hsome]
    rw [setFile_eq hfd] at hset
    cases hset
    exact .closes hvalid

@[simp] theorem copyPath_valid (target source : File) :
    (target.copyPath source).valid = target.valid := by
  unfold File.copyPath
  split <;> rfl

@[simp] theorem copyPath_hostFd (target source : File) :
    (target.copyPath source).hostFd = target.hostFd := by
  unfold File.copyPath
  split <;> rfl

/-- A duplicate of a well set entry is well set. -/
theorem copyPath_wellSet {target source : File} {i j : Fin maxFilesNr} (h : source.WellSet j)
    (hfd : target.fd = i) (hhostFd : 0 ≤ target.hostFd) : (target.copyPath source).WellSet i := by
  obtain ⟨path, hpath⟩ := Option.ne_none_iff_exists'.mp h.path
  unfold File.copyPath
  rw [hpath]
  exact ⟨hfd, by simp, h.regular, hhostFd⟩

/-- The entry that `call_dup` and `do_fcntl_duplicate_fd` fill. -/
def duplicateOf (i : Fin maxFilesNr) (source : File) (hostFd : Nat) : File :=
  File.copyPath { File.zero with fd := i.val, valid := true, hostFd } source

theorem duplicateOf_spec {j : Fin maxFilesNr} (hj : (t j).valid = true) (i : Fin maxFilesNr)
    (hostFd : Nat) :
    (duplicateOf i (t j) hostFd).valid = true ∧ (duplicateOf i (t j) hostFd).hostFd = hostFd ∧
      (t.WellSet → (duplicateOf i (t j) hostFd).WellSet i) := by
  refine ⟨by simp [duplicateOf], by simp [duplicateOf], fun h => ?_⟩
  exact copyPath_wellSet (h j hj) rfl (Int.natCast_nonneg hostFd)

/-- A call that fills a new entry with a duplicate of a descriptor. -/
theorem duplicate_step {rv : Word} {fill : Fin maxFilesNr → FileTable → Result (Word × FileTable)}
    (h : (do
      if ← isBadDescriptor t fd then return (ebadf, t)
      else
        match allocateFileDescriptor t with
        | none => return (enomem, t)
        | some (i, t) => fill i t) = .ok (rv, t'))
    (hadmits : Admits fds (t.duplicateEvents fd answer))
    (hfill : ∀ i j (t₁ : FileTable), t.duplicateEvents fd answer = [.opens answer] →
      t₁ = Function.update t i { File.zero with fd := i.val, valid := true } →
      t₁.file fd = .ok (t j) → fill i t₁ = .ok (rv, t') →
      (∀ hostFd, answer = .returns hostFd → t' = Function.update t i (duplicateOf i (t j) hostFd)) ∧
      ∀ errno, answer = .fails errno → t' = Function.update t i .zero) :
    TableStep fds t (runEvents fds (t.duplicateEvents fd answer)) t' := by
  obtain ⟨bad, hbad, h⟩ := bind_eq_ok.mp h
  cases bad with
  | true =>
    cases h
    rw [FileTable.duplicateEvents, valid?_of_bad hbad]
    exact .refl _ _
  | false =>
    obtain ⟨j, hfd, hvalid, hsome⟩ := valid?_of_good hbad
    simp only [Bool.false_eq_true, if_false] at h
    cases halloc : allocateFileDescriptor t with
    | none =>
      rw [halloc] at h
      cases h
      rw [FileTable.duplicateEvents, hsome]
      simp only [FileTable.allocateEvents, halloc]
      exact .refl _ _
    | some new =>
      obtain ⟨i, t₁⟩ := new
      obtain ⟨hi, ht₁⟩ := allocateFileDescriptor_some halloc
      have hevents : t.duplicateEvents fd answer = [.opens answer] := by
        simp only [FileTable.duplicateEvents, hsome, FileTable.allocateEvents, halloc]
      have hsource : t₁ j = t j := by
        have hne : j ≠ i := fun heq => by simp [heq, hi] at hvalid
        rw [ht₁, Function.update_of_ne hne]
      rw [halloc] at h
      obtain ⟨hreturns, hfails⟩ := hfill i j t₁ hevents ht₁ (by rw [file_eq hfd, hsource]) h
      rw [hevents] at hadmits ⊢
      exact allocate_step _ halloc hadmits hreturns hfails (duplicateOf_spec hvalid i)

theorem doFcntlDuplicateFd_step {rv : Word} (h : doFcntlDuplicateFd t fd answer = .ok (rv, t'))
    (hadmits : Admits fds (t.duplicateEvents fd answer)) :
    TableStep fds t (runEvents fds (t.duplicateEvents fd answer)) t' := by
  refine duplicate_step h hadmits fun i j t₁ _ ht₁ hsource hfill => ⟨?_, ?_⟩
  · rintro hostFd rfl
    simp only [hsource, ok_bind] at hfill
    cases hfill
    rw [ht₁, Function.update_idem, Function.update_self]
    rfl
  · rintro errno rfl
    obtain ⟨t₂, hdealloc, hfill⟩ := bind_eq_ok.mp hfill
    cases hfill
    obtain ⟨-, -, hdealloc⟩ := bind_eq_ok.mp hdealloc
    cases hdealloc
    rw [ht₁, Function.update_idem]

theorem callDup_step {rv : Word} (h : callDup t fd answer = .ok (rv, t'))
    (hadmits : Admits fds (t.duplicateEvents fd answer))
    (haccepted : ∀ e ∈ t.duplicateEvents fd answer, ¬ e.Refused) :
    TableStep fds t (runEvents fds (t.duplicateEvents fd answer)) t' := by
  refine duplicate_step h hadmits fun i j t₁ hevents ht₁ hsource hfill => ⟨?_, ?_⟩
  · rintro hostFd rfl
    simp only [hsource, ok_bind] at hfill
    cases hfill
    rw [ht₁, Function.update_idem, Function.update_self]
    rfl
  · rintro errno rfl
    rw [hevents] at haccepted
    exact absurd trivial (haccepted _ List.mem_cons_self)

/-- Where no descriptor is taken away in between, events are one after the other. -/
theorem admits_append {events events' : List HostEvent} :
    Admits fds (events ++ events') ↔ Admits fds events ∧ Admits (runEvents fds events) events' := by
  induction events generalizing fds with
  | nil => simp [Admits, runEvents]
  | cons e events ih =>
    simp only [List.cons_append, Admits, ih, and_assoc]
    rfl

theorem runEvents_append (events events' : List HostEvent) :
    runEvents fds (events ++ events') = runEvents (runEvents fds events) events' :=
  List.foldl_append

theorem closeTarget_step (fds : OpenFds) {newFd : Word} {closed : HostAnswer}
    (h : closeTarget t newFd closed = .ok t') :
    ∃ i : Fin maxFilesNr, newFd.toNat = i ∧ (t' i).valid = false ∧ (∀ j ≠ i, t' j = t j) ∧
      TableStep fds t (runEvents fds (t.closeEvents newFd)) t' := by
  obtain ⟨f, hfile, h⟩ := bind_eq_ok.mp h
  have hlt : newFd.toNat < maxFilesNr := by
    by_contra hge
    rw [FileTable.file, dif_neg hge] at hfile
    cases hfile
  obtain ⟨i, hi⟩ : ∃ i : Fin maxFilesNr, newFd.toNat = i := ⟨⟨newFd.toNat, hlt⟩, rfl⟩
  rw [file_eq hi] at hfile
  cases hfile
  refine ⟨i, hi, ?_⟩
  cases hvalid : (t i).valid with
  | true =>
    rw [if_pos hvalid] at h
    obtain ⟨⟨rv, t₁⟩, hclose, h⟩ := bind_eq_ok.mp h
    cases h
    have hgood : isBadDescriptor t newFd = .ok false := by
      rw [isBadDescriptor, if_neg (Nat.not_lt.mpr (Nat.le_of_lt hlt)), file_eq hi]
      simp [hvalid]
    have hstep : TableStep fds t (runEvents fds (t.closeEvents newFd)) t₁ := doClose_step hclose
    simp only [doClose, hgood, ok_bind, Bool.false_eq_true, if_false, setFile_eq hi] at hclose
    cases hclose
    refine ⟨?_, fun j hj => Function.update_of_ne hj _ _, hstep⟩
    simp [File.zero]
  | false =>
    rw [if_neg (by simp [hvalid])] at h
    cases h
    have hnone : t.valid? newFd = none := by
      rw [valid?_eq hi, hvalid]
      rfl
    rw [FileTable.closeEvents, hnone]
    exact ⟨hvalid, fun _ _ => rfl, .refl _ _⟩

theorem callDup3_step {oldFd newFd rv : Word} {closed : HostAnswer}
    (h : callDup3 t oldFd newFd closed answer = .ok (rv, t'))
    (hadmits : Admits fds ((FileCall.dup3 oldFd newFd closed answer).events t))
    (haccepted : ∀ e ∈ (FileCall.dup3 oldFd newFd closed answer).events t, ¬ e.Refused) :
    TableStep fds t (runEvents fds ((FileCall.dup3 oldFd newFd closed answer).events t)) t' := by
  obtain ⟨bad, hbad, h⟩ := bind_eq_ok.mp h
  simp only [FileCall.events] at hadmits haccepted ⊢
  cases bad with
  | true =>
    cases h
    rw [valid?_of_bad hbad]
    exact .refl _ _
  | false =>
    obtain ⟨j, hold, hvalid, hsome⟩ := valid?_of_good hbad
    simp only [hsome] at hadmits haccepted ⊢
    simp only [Bool.false_eq_true, if_false] at h
    split at h
    next hgt =>
      cases h
      rw [if_pos (Or.inl hgt)]
      exact .refl _ _
    next hle =>
      split at h
      next heq =>
        cases h
        rw [if_pos (Or.inr heq)]
        exact .refl _ _
      next hne =>
        rw [if_neg (not_or.mpr ⟨hle, hne⟩)] at hadmits haccepted ⊢
        obtain ⟨t₁, hclose, h⟩ := bind_eq_ok.mp h
        obtain ⟨i, hnew, hinvalid, hothers, hstep⟩ := closeTarget_step fds hclose
        have hji : j ≠ i := by
          rintro rfl
          exact hne (BitVec.eq_of_toNat_eq (hnew.trans hold.symm))
        simp only [file_eq hnew, file_eq hold, setFile_eq hnew, hothers j hji, ok_bind,
          pure_eq_ok, Except.ok.injEq, Prod.mk.injEq] at h
        obtain ⟨-, rfl⟩ := h
        rw [admits_append] at hadmits
        rw [runEvents_append]
        refine hstep.trans ?_
        cases answer with
        | fails errno =>
          exact absurd trivial (haccepted (.opens (.fails errno)) (by simp))
        | returns hostFd =>
          have hwellSet : t₁.WellSet → (t j).WellSet j := by
            intro hwell
            rw [← hothers j hji]
            exact hwell j (by rwa [hothers j hji])
          refine .opens hinvalid hadmits.2.1 (by simp) (by simp [HostAnswer.value]) ?_
          intro hwell
          exact copyPath_wellSet (hwellSet hwell) (by rw [hnew]) (Int.natCast_nonneg hostFd)

end Calls

/-! ## What the copy of a table does -/

section Copy

variable {fds : OpenFds} {t child : FileTable} {answers : Fin maxFilesNr → HostAnswer}

/-- The copies of entries own what was opened for them. -/
theorem copyEntries_transfer (hchild : ∀ i, duplicateFile (t i) (answers i) = .ok (child i))
    {l : List (Fin maxFilesNr)} (own : List (Int × Unit))
    (hadmits : Admits fds (copyEntries t answers l))
    (haccepted : ∀ e ∈ copyEntries t answers l, ¬ e.Refused) :
    Transfer id True fds own (runEvents fds (copyEntries t answers l))
      ((l.filterMap fun i => if (child i).valid then some ((child i).hostFd, ()) else none) ++
        own) := by
  induction l generalizing fds own with
  | nil => exact .refl _ _
  | cons i l ih =>
    obtain ⟨hsame, hcopy⟩ := duplicateFile_ok (hchild i)
    cases hvalid : (t i).valid with
    | false =>
      have hevents : copyEntries t answers (i :: l) = copyEntries t answers l :=
        List.filterMap_cons_none (by simp [hvalid])
      rw [hevents] at hadmits haccepted ⊢
      rw [List.filterMap_cons_none (by simp [hsame, hvalid])]
      exact ih own hadmits haccepted
    | true =>
      have hevents : copyEntries t answers (i :: l) =
          .opens (answers i) :: copyEntries t answers l :=
        List.filterMap_cons_some (by simp [hvalid])
      rw [hevents] at hadmits haccepted ⊢
      rw [List.filterMap_cons_some (b := ((answers i).value, ()))
        (by simp [(hcopy hvalid).1, hvalid])]
      cases hanswer : answers i with
      | fails errno =>
        rw [hanswer] at haccepted
        exact absurd trivial (haccepted _ List.mem_cons_self)
      | returns hostFd =>
        rw [hanswer] at hadmits haccepted
        have hopened : Transfer id True fds own (Function.update fds hostFd (some ()))
            (((hostFd : Int), ()) :: own) := .allocate () hadmits.1
        have hrest := ih (((hostFd : Int), ()) :: own) hadmits.2
          fun e he => haccepted e (List.mem_cons_of_mem _ he)
        exact (hopened.trans hrest).trans (.perm List.perm_middle)

/-- The copy of a table owns what was opened for it, and is well set. -/
theorem duplicateFiles_step (h : duplicateFiles t answers = .ok child)
    (hadmits : Admits fds (copyEvents t answers))
    (haccepted : ∀ e ∈ copyEvents t answers, ¬ e.Refused) :
    Transfer id True fds [] (runEvents fds (copyEvents t answers)) child.hostFds ∧
      (t.WellSet → child.WellSet) := by
  have hchild := duplicateFiles_file h
  constructor
  · have htransfer := copyEntries_transfer (l := List.finRange maxFilesNr) hchild []
      hadmits haccepted
    rwa [List.append_nil] at htransfer
  · intro hwell i hi
    obtain ⟨hsame, hcopy⟩ := duplicateFile_ok (hchild i)
    have hvalid : (t i).valid = true := hsame ▸ hi
    have hentry := hwell i hvalid
    rw [(hcopy hvalid).1]
    refine ⟨hentry.fd, hentry.path, hentry.regular, ?_⟩
    have hmem : HostEvent.opens (answers i) ∈ copyEvents t answers :=
      List.mem_filterMap.mpr ⟨i, List.mem_finRange i, by simp [hvalid]⟩
    cases hanswer : answers i with
    | fails errno =>
      rw [hanswer] at hmem
      exact absurd trivial (haccepted _ hmem)
    | returns hostFd => exact Int.natCast_nonneg hostFd

end Copy

end Hyrule
