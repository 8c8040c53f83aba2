import Hyrule.Fs.HostFiles
import Hyrule.Task.Linkage

/-!
# Open files across a fork

A fork should leave the files of the host as they are, and give the child the
descriptors of its parent, each on the same file at the same offset.
`cloneTask_keepsFiles_iff` says when `clone_task` does.  A regular file is opened a
second time, so the copy is at the start of the file, and the flags of the first
`open` have their effect again: `O_TRUNC` empties the file that the parent has
written since, and `O_CREAT` with `O_EXCL` leaves the child with an entry that is
open on nothing.
-/

namespace Hyrule

open Lib Lib.Result

variable {host : Host} {opened : Fin maxFilesNr → OpenFile} {fds : Fin maxFilesNr → Nat}

/-! ## What is expected -/

/-- No file has another content, and the valid entries of the parent have valid copies
that are open on the same files at the same offsets. -/
structure KeepsFiles (host host' : Host) (opened : Fin maxFilesNr → OpenFile)
    (parent child : FileTable) : Prop where
  content : host'.content = host.content
  copies : ∀ i, (parent i).valid = true → (child i).valid = true ∧
    (child i).fd = (parent i).fd ∧ host'.descriptors (child i).hostFd = some (opened i)

/-- A second `open` of a file comes to the same as the first descriptor, and does
nothing to the file. -/
structure Reopens (host : Host) (f : File) (original : OpenFile) : Prop where
  atStart : original.offset = 0
  accepted : createsOnly f.flags = false
  empty : hasFlag f.flags oTrunc = true → host.content original.file = []

instance (host : Host) (f : File) (original : OpenFile) : Decidable (Reopens host f original) :=
  decidable_of_iff (original.offset = 0 ∧ createsOnly f.flags = false ∧
      (hasFlag f.flags oTrunc = true → host.content original.file = []))
    ⟨fun ⟨hstart, haccepted, hempty⟩ => ⟨hstart, haccepted, hempty⟩,
      fun ⟨hstart, haccepted, hempty⟩ => ⟨hstart, haccepted, hempty⟩⟩

/-! ## The copy of a table -/

variable {parent child : FileTable} {host' : Host} {answers : Fin maxFilesNr → HostAnswer}

/-- The copy of a valid entry keeps the open file if it is open on the same, which is
known from the answer of the host. -/
theorem copy_iff (hopens : host'.Opens parent opened) {i : Fin maxFilesNr}
    (hvalid : (parent i).valid = true)
    (hchild : child i = { parent i with hostFd := (answers i).value })
    (hanswer : AnsweredFor (parent i) (opened i) (fds i) (answers i) host') :
    ((child i).valid = true ∧ (child i).fd = (parent i).fd ∧
      host'.descriptors (child i).hostFd = some (opened i)) ↔
      copyOf (parent i) (opened i) = some (opened i) := by
  rw [hchild]
  simp only [hvalid, true_and]
  unfold AnsweredFor at hanswer
  cases hcopy : copyOf (parent i) (opened i) with
  | none =>
    rw [hcopy] at hanswer
    obtain ⟨errno, hanswer⟩ := hanswer
    rw [hanswer, HostAnswer.value, hopens.negative (-1) (by decide)]
  | some copy =>
    rw [hcopy] at hanswer
    obtain ⟨hanswer, hopen⟩ := hanswer
    rw [hanswer, HostAnswer.value, hopen]

/-- A regular file has a copy on the same file at the same offset if it can be opened
again and is at its start. -/
theorem copyOf_regular {f : File} {original : OpenFile} (htype : f.fileType = .regular) :
    copyOf f original = some original ↔ original.offset = 0 ∧ createsOnly f.flags = false := by
  obtain ⟨file, offset⟩ := original
  cases hflags : createsOnly f.flags with
  | true => simp [copyOf, htype, hflags]
  | false => simp [copyOf, htype, hflags, eq_comm]

theorem duplicateFiles_keeps_iff (hopens : host.Opens parent opened) (hpicks : host.Picks fds)
    (h : duplicateFiles parent (host.duplicateFiles parent fds).1 = .ok child) :
    KeepsFiles host (host.duplicateFiles parent fds).2 opened parent child ↔
      ∀ i, (parent i).valid = true → (parent i).fileType = .regular →
        Reopens host (parent i) (opened i) := by
  have hentry := fun i => (duplicateFile_ok (duplicateFiles_file h i)).2
  have hspec := hopens.duplicateFiles hpicks fun i hvalid => (hentry i hvalid).2.2
  generalize host.duplicateFiles parent fds = duplicated at *
  have hopens' := hspec.opens hopens fun i _ => hpicks.unused i
  have hcopy := fun i hvalid => copy_iff hopens' hvalid (hentry i hvalid).1
    (hspec.copies i (List.mem_finRange i) hvalid)
  constructor
  · intro hkeeps i hvalid htype
    obtain ⟨hstart, haccepted⟩ :=
      (copyOf_regular htype).mp ((hcopy i hvalid).mp (hkeeps.copies i hvalid))
    refine ⟨hstart, haccepted, fun htrunc => ?_⟩
    rw [← hkeeps.content]
    exact hspec.emptied _ ⟨i, List.mem_finRange i, hvalid, htype, haccepted, htrunc, rfl⟩
  · intro hreopens
    refine ⟨?_, fun i hvalid => (hcopy i hvalid).mpr ?_⟩
    · funext file
      by_cases htruncates : ∃ i ∈ List.finRange maxFilesNr, Truncates parent opened i file
      · have hemptied := hspec.emptied file htruncates
        obtain ⟨i, -, hvalid, htype, -, htrunc, rfl⟩ := htruncates
        rw [hemptied, (hreopens i hvalid htype).empty htrunc]
      · exact hspec.kept file htruncates
    · cases htype : (parent i).fileType with
      | error => exact absurd htype (hentry i hvalid).2.1
      | regular =>
        have hregular := hreopens i hvalid htype
        exact (copyOf_regular htype).mpr ⟨hregular.atStart, hregular.accepted⟩
      | socket => simp [copyOf, htype]

/-! ## The fork -/

/-- A fork without `CLONE_FILES` keeps the files if and only if every regular file of the
parent is at its start, is not opened exclusively, and is empty if its flags
truncate it. -/
theorem cloneTask_keepsFiles_iff {s s' : Forest} {t : TaskId} {args : CloneArgs}
    {alloc : Allocator} {pid : Word} (hflags : hasFlag args.flags cloneFiles = false)
    (hopens : host.Opens (s.vm t).files opened) (hpicks : host.Picks fds)
    (h : s.cloneTask t args alloc (host.duplicateFiles (s.vm t).files fds).1 = .ok (pid, s')) :
    KeepsFiles host (host.duplicateFiles (s.vm t).files fds).2 opened (s.vm t).files
        (s'.vm s.nrTasks).files ↔
      ∀ i, ((s.vm t).files i).valid = true → ((s.vm t).files i).fileType = .regular →
        Reopens host ((s.vm t).files i) (opened i) :=
  duplicateFiles_keeps_iff hopens hpicks ((cloneTask_ok h).files_copied hflags)

/-! ## A file that is written before a fork -/

/-- The string `"/srv"`. -/
def srvRoot : CString := .ofBuffer [47, 115, 114, 118]

/-- A host with the standard files, and with a file that has a byte and is open behind
it. -/
def writtenHost : Host where
  lookup path := [srvRoot.append devStdin, srvRoot.append devStdout, srvRoot.append devStderr,
    srvRoot.append slashX].idxOf? path
  nextFile := 4
  content file := if file = 3 then [1] else []
  descriptors fd :=
    if 3 ≤ fd ∧ fd < 7 then some ⟨(fd - 3).toNat, if fd = 6 then 1 else 0⟩ else none

/-- What its descriptors are open on. -/
def writtenOpened (i : Fin maxFilesNr) : OpenFile := ⟨i, if i = 3 then 1 else 0⟩

/-- The descriptors that it picks. -/
def writtenFds (i : Fin maxFilesNr) : Nat := 100 + i

/-- The table has entries that are open on the host. -/
def WrittenOpens (t : FileTable) : Prop :=
  ∀ i, (t i).valid = true → writtenHost.descriptors (t i).hostFd = some (writtenOpened i) ∧
    ∀ path ∈ (t i).hostCpath, writtenHost.lookup path = some (writtenOpened i).file

instance (t : FileTable) : Decidable (WrittenOpens t) := inferInstanceAs (Decidable (∀ _, _))

theorem WrittenOpens.opens {t : FileTable} (h : WrittenOpens t) :
    writtenHost.Opens t writtenOpened where
  descriptor i hvalid := (h i hvalid).1
  path i hvalid := (h i hvalid).2
  negative fd hfd := if_neg fun hrange => by omega

theorem writtenHost_picks : writtenHost.Picks writtenFds where
  injective i j hij := Fin.ext (Nat.add_left_cancel hij)
  unused i := if_neg fun hrange => by
    unfold writtenFds at hrange
    omega

/-- A fork right after the start-up keeps the standard files, which are at their
start. -/
theorem cloneTask_keepsFiles_standard :
    ∃ s pid s', (forestRuns srvRoot).Reachable s ∧
      s.cloneTask 0 ⟨cloneVm, 0, 0, 0, 0⟩ (.lowest 8)
        (writtenHost.duplicateFiles (s.vm 0).files writtenFds).1 = .ok (pid, s') ∧
      KeepsFiles writtenHost (writtenHost.duplicateFiles (s.vm 0).files writtenFds).2
        writtenOpened (s.vm 0).files (s'.vm s.nrTasks).files := by
  have hrun : (do
      let s ← applicationSandboxInit (bareBoot srvRoot) (.lowest 8)
      let (_, s') ← s.cloneTask 0 ⟨cloneVm, 0, 0, 0, 0⟩ (.lowest 8)
        (writtenHost.duplicateFiles (s.vm 0).files writtenFds).1
      return (decide (WrittenOpens (s.vm 0).files), decide (∀ i, ((s.vm 0).files i).valid = true →
        ((s.vm 0).files i).fileType = FileType.regular →
        Reopens writtenHost ((s.vm 0).files i) (writtenOpened i)))) = .ok (true, true) := by
    decide +kernel
  obtain ⟨s, hboot, hrun⟩ := bind_eq_ok.mp hrun
  obtain ⟨⟨pid, s'⟩, hclone, hvalues⟩ := bind_eq_ok.mp hrun
  simp only [pure_eq_ok, Except.ok.injEq, Prod.mk.injEq, decide_eq_true_eq] at hvalues
  obtain ⟨hopens, hreopens⟩ := hvalues
  refine ⟨s, pid, s', .init ⟨_, _, rfl, hboot⟩, hclone, ?_⟩
  exact (cloneTask_keepsFiles_iff (by decide) hopens.opens writtenHost_picks hclone).mpr hreopens

/-- A file that was opened with `O_WRONLY`, `O_CREAT` and `O_TRUNC` and then written is
empty after a fork, and the child has it open at its start. -/
theorem fork_truncates_file :
    ∃ s pid s', (forestRuns srvRoot).Reachable s ∧ (s.vm 0).links.clonedFiles = false ∧
      writtenHost.Opens (s.vm 0).files writtenOpened ∧ writtenHost.Picks writtenFds ∧
      s.cloneTask 0 ⟨cloneVm, 0, 0, 0, 0⟩ (.lowest 8)
        (writtenHost.duplicateFiles (s.vm 0).files writtenFds).1 = .ok (pid, s') ∧
      writtenHost.content 3 = [1] ∧
      (writtenHost.duplicateFiles (s.vm 0).files writtenFds).2.content 3 = [] ∧
      writtenHost.descriptors ((s.vm 0).files 3).hostFd = some ⟨3, 1⟩ ∧
      (writtenHost.duplicateFiles (s.vm 0).files writtenFds).2.descriptors
        ((s'.vm s.nrTasks).files 3).hostFd = some ⟨3, 0⟩ ∧
      ¬ KeepsFiles writtenHost (writtenHost.duplicateFiles (s.vm 0).files writtenFds).2
        writtenOpened (s.vm 0).files (s'.vm s.nrTasks).files := by
  have hrun : (do
      let s₀ ← applicationSandboxInit (bareBoot srvRoot) (.lowest 8)
      let s ← TaskCall.run s₀ 0 (.file (.openat atFdcwd slashX 0x241 0x1b6 (.returns 6)))
      let duplicated := writtenHost.duplicateFiles (s.vm 0).files writtenFds
      let (_, s') ← s.cloneTask 0 ⟨cloneVm, 0, 0, 0, 0⟩ (.lowest 8) duplicated.1
      return ((s₀.nrTasks, (s.vm 0).links.clonedFiles, decide (WrittenOpens (s.vm 0).files)),
        duplicated.2.content 3, ((s.vm 0).files 3).hostFd,
        duplicated.2.descriptors ((s'.vm s.nrTasks).files 3).hostFd)) =
      .ok ((1, false, true), [], 6, some ⟨3, 0⟩) := by
    decide +kernel
  obtain ⟨s₀, hboot, hrun⟩ := bind_eq_ok.mp hrun
  obtain ⟨s, hopen, hrun⟩ := bind_eq_ok.mp hrun
  obtain ⟨⟨pid, s'⟩, hclone, hvalues⟩ := bind_eq_ok.mp hrun
  simp only [pure_eq_ok, Except.ok.injEq, Prod.mk.injEq, decide_eq_true_eq] at hvalues
  obtain ⟨⟨hnrTasks, howns, hopens⟩, hcontent, hhostFd, hdescriptor⟩ := hvalues
  have hinit : (forestRuns srvRoot).Reachable s₀ := .init ⟨_, _, rfl, hboot⟩
  have hreach := hinit.step (a := (0, _)) ⟨by rw [hnrTasks]; exact Nat.one_pos, hopen⟩
  refine ⟨s, pid, s', hreach, howns, hopens.opens, writtenHost_picks, hclone, rfl, hcontent, ?_,
    hdescriptor, fun hkeeps => ?_⟩
  · rw [hhostFd]
    rfl
  · have hsame := congrFun hkeeps.content 3
    rw [hcontent] at hsame
    exact absurd hsame (by decide)

end Hyrule
