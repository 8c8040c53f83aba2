import Hyrule.Fs.Files

/-!
# Files of the host

What the calls of `duplicate_files` do on the host.  A path leads to a file, which
has a content.  A descriptor is open on a file, at an offset.  `open` starts at the
offset 0, empties the file if `O_TRUNC` is set, and fails on an existing file if
`O_CREAT` and `O_EXCL` are set.  `dup` gives a descriptor on the same file at the
same offset.  Which unused descriptor the host picks is an argument.

`duplicate_files` copies a regular file by a second `open` of its path, with the
flags of the first.
-/

namespace Hyrule

open Lib Lib.Result

/-! ## The host -/

/-- What a descriptor of the host is open on. -/
structure OpenFile where
  file : Nat
  offset : Nat
deriving DecidableEq

/-- The files of the host and its open descriptors. -/
structure Host where
  lookup : CString → Option Nat
  /-- The file that is created next. -/
  nextFile : Nat
  content : Nat → List Byte
  descriptors : Int → Option OpenFile

/-- The flags of `open` that change what it does to a file. -/
def oCreat : Word := 0x40
def oExcl : Word := 0x80
def oTrunc : Word := 0x200

/-- Both `O_CREAT` and `O_EXCL` are set. -/
def createsOnly (flags : Word) : Bool := hasFlag flags oCreat && hasFlag flags oExcl

namespace Host

/-- The host with a descriptor opened at the start of a file. -/
def openAtStart (host : Host) (fd : Nat) (file : Nat) : Host :=
  { host with descriptors := Function.update host.descriptors fd (some ⟨file, 0⟩) }

/-- The host with a file emptied. -/
def truncate (host : Host) (file : Nat) : Host :=
  { host with content := Function.update host.content file [] }

/-- `open`. -/
def openPath (host : Host) (path : CString) (flags : Word) (fd : Nat) : HostAnswer × Host :=
  match host.lookup path with
  | some file =>
      -- EEXIST
      if createsOnly flags then (.fails 17, host)
      else
        let host := if hasFlag flags oTrunc then host.truncate file else host
        (.returns fd, host.openAtStart fd file)
  | none =>
      if hasFlag flags oCreat then
        let file := host.nextFile
        let host := { host with
          lookup := Function.update host.lookup path (some file), nextFile := file + 1 }
        (.returns fd, (host.truncate file).openAtStart fd file)
      -- ENOENT
      else (.fails 2, host)

/-- `dup`. -/
def dup (host : Host) (hostFd : Int) (fd : Nat) : HostAnswer × Host :=
  match host.descriptors hostFd with
  -- EBADF
  | none => (.fails 9, host)
  | some f =>
      (.returns fd, { host with descriptors := Function.update host.descriptors fd (some f) })

/-- The host's part in the loop body of `duplicate_files`. -/
def duplicate (host : Host) (f : File) (fd : Nat) : HostAnswer × Host :=
  match f.valid, f.fileType, f.hostCpath with
  | true, .regular, some path => host.openPath path f.flags fd
  | true, .socket, _ => host.dup f.hostFd fd
  -- There is no call.
  | _, _, _ => (.fails 0, host)

/-- The host's part in the rest of the loop of `duplicate_files`, with the descriptors
that it picks. -/
def duplicateEntries (t : FileTable) (fds : Fin maxFilesNr → Nat) :
    List (Fin maxFilesNr) → Host → (Fin maxFilesNr → HostAnswer) × Host
  | [], host => (fun _ => .fails 0, host)
  | i :: rest, host =>
      let (answer, host) := host.duplicate (t i) (fds i)
      let (answers, host) := duplicateEntries t fds rest host
      (Function.update answers i answer, host)

/-- The host's part in `duplicate_files`. -/
def duplicateFiles (host : Host) (t : FileTable) (fds : Fin maxFilesNr → Nat) :
    (Fin maxFilesNr → HostAnswer) × Host :=
  duplicateEntries t fds (List.finRange maxFilesNr) host

/-- The valid entries of a table are open on the host, and their paths still lead to
the same files. -/
structure Opens (host : Host) (t : FileTable) (opened : Fin maxFilesNr → OpenFile) : Prop where
  descriptor : ∀ i, (t i).valid = true → host.descriptors (t i).hostFd = some (opened i)
  path : ∀ i, (t i).valid = true → ∀ path ∈ (t i).hostCpath,
    host.lookup path = some (opened i).file
  negative : ∀ fd < 0, host.descriptors fd = none

/-- The host picks each descriptor once, and none that is open. -/
structure Picks (host : Host) (fds : Fin maxFilesNr → Nat) : Prop where
  injective : Function.Injective fds
  unused : ∀ i, host.descriptors (fds i) = none

end Host

/-! ## What the calls do -/

section Duplicated

variable {t : FileTable} {opened : Fin maxFilesNr → OpenFile} {fds : Fin maxFilesNr → Nat}
  {host host₁ host₂ : Host} {l : List (Fin maxFilesNr)}

/-- The copy of an entry empties a file. -/
def Truncates (t : FileTable) (opened : Fin maxFilesNr → OpenFile) (i : Fin maxFilesNr)
    (file : Nat) : Prop :=
  (t i).valid = true ∧ (t i).fileType = .regular ∧ createsOnly (t i).flags = false ∧
    hasFlag (t i).flags oTrunc = true ∧ (opened i).file = file

/-- What the copy of a valid entry is open on, if the host opens it. -/
def copyOf (f : File) (original : OpenFile) : Option OpenFile :=
  match f.fileType with
  | .regular => if createsOnly f.flags then none else some ⟨original.file, 0⟩
  | .socket => some original
  | .error => none

/-- The answer for the copy of an entry, and what it is open on. -/
def AnsweredFor (f : File) (original : OpenFile) (fd : Nat) (answer : HostAnswer)
    (host : Host) : Prop :=
  match copyOf f original with
  | none => ∃ errno, answer = .fails errno
  | some copy => answer = .returns fd ∧ host.descriptors fd = some copy

/-- What the copies of some entries do. -/
structure Duplicated (t : FileTable) (opened : Fin maxFilesNr → OpenFile)
    (fds : Fin maxFilesNr → Nat) (l : List (Fin maxFilesNr)) (host : Host)
    (answers : Fin maxFilesNr → HostAnswer) (host' : Host) : Prop where
  lookup : host'.lookup = host.lookup
  descriptors : ∀ fd : Int, (∀ i ∈ l, fd ≠ fds i) → host'.descriptors fd = host.descriptors fd
  emptied : ∀ file, (∃ i ∈ l, Truncates t opened i file) → host'.content file = []
  kept : ∀ file, (¬ ∃ i ∈ l, Truncates t opened i file) → host'.content file = host.content file
  copies : ∀ i ∈ l, (t i).valid = true →
    AnsweredFor (t i) (opened i) (fds i) (answers i) host'

variable {i : Fin maxFilesNr} {answer : HostAnswer} {answers : Fin maxFilesNr → HostAnswer}

/-- The copy of an entry that the host does not open. -/
theorem duplicated_refused {errno : Word}
    (h : (t i).valid = true → copyOf (t i) (opened i) = none) :
    Duplicated t opened fds [i] host (fun _ => .fails errno) host where
  lookup := rfl
  descriptors _ _ := rfl
  emptied file := by
    rintro ⟨j, hj, hvalid, htype, hflags, -⟩
    obtain rfl := List.mem_singleton.mp hj
    have hnone := h hvalid
    simp [copyOf, htype, hflags] at hnone
  kept _ _ := rfl
  copies j hj hvalid := by
    obtain rfl := List.mem_singleton.mp hj
    rw [AnsweredFor, h hvalid]
    exact ⟨errno, rfl⟩

/-- The copy of an entry that the host opens. -/
theorem duplicated_opened {copy : OpenFile} {content : Nat → List Byte}
    (hcopy : copyOf (t i) (opened i) = some copy)
    (hemptied : ∀ file, Truncates t opened i file → content file = [])
    (hkept : ∀ file, ¬ Truncates t opened i file → content file = host.content file) :
    Duplicated t opened fds [i] host (fun _ => .returns (fds i))
      { host with content, descriptors := Function.update host.descriptors (fds i) (some copy) }
      where
  lookup := rfl
  descriptors fd hfd := Function.update_of_ne (hfd i List.mem_cons_self) _ _
  emptied file := by
    rintro ⟨j, hj, htruncates⟩
    obtain rfl := List.mem_singleton.mp hj
    exact hemptied file htruncates
  kept file hnone := hkept file fun htruncates => hnone ⟨i, List.mem_cons_self, htruncates⟩
  copies j hj _ := by
    obtain rfl := List.mem_singleton.mp hj
    rw [AnsweredFor, hcopy]
    exact ⟨rfl, Function.update_self _ _ _⟩

/-- What the copy of one entry does, if it has a path or is a socket. -/
theorem duplicate_spec (hopens : host.Opens t opened)
    (hpath : (t i).valid = true → (t i).fileType = .regular → (t i).hostCpath ≠ none)
    (h : host.duplicate (t i) (fds i) = (answer, host₁)) :
    Duplicated t opened fds [i] host (fun _ => answer) host₁ := by
  unfold Host.duplicate at h
  split at h
  next path hvalid htype hcpath =>
    rw [Host.openPath, hopens.path i hvalid path hcpath] at h
    cases hflags : createsOnly (t i).flags with
    | true =>
      simp only [hflags, if_pos, Prod.mk.injEq] at h
      obtain ⟨rfl, rfl⟩ := h
      exact duplicated_refused fun _ => by simp [copyOf, htype, hflags]
    | false =>
      have hcopy : copyOf (t i) (opened i) = some ⟨(opened i).file, 0⟩ := by
        simp [copyOf, htype, hflags]
      cases htrunc : hasFlag (t i).flags oTrunc with
      | true =>
        simp only [hflags, htrunc, Bool.false_eq_true, if_false, if_true, Prod.mk.injEq] at h
        obtain ⟨rfl, rfl⟩ := h
        refine duplicated_opened hcopy ?_ ?_
        · rintro file ⟨-, -, -, -, rfl⟩
          exact Function.update_self _ _ _
        · intro file hnot
          refine Function.update_of_ne (fun heq => hnot ?_) _ _
          exact ⟨hvalid, htype, hflags, htrunc, heq.symm⟩
      | false =>
        simp only [hflags, htrunc, Bool.false_eq_true, if_false, Prod.mk.injEq] at h
        obtain ⟨rfl, rfl⟩ := h
        refine duplicated_opened hcopy ?_ fun _ _ => rfl
        rintro file ⟨-, -, -, htrunc', -⟩
        simp [htrunc] at htrunc'
  next hvalid htype =>
    rw [Host.dup, hopens.descriptor i hvalid] at h
    simp only [Prod.mk.injEq] at h
    obtain ⟨rfl, rfl⟩ := h
    refine duplicated_opened (by simp [copyOf, htype]) ?_ fun _ _ => rfl
    rintro file ⟨-, htype', -⟩
    simp [htype] at htype'
  next hsocket hregular =>
    simp only [Prod.mk.injEq] at h
    obtain ⟨rfl, rfl⟩ := h
    refine duplicated_refused fun hvalid => ?_
    cases htype : (t i).fileType with
    | error => simp [copyOf, htype]
    | regular =>
      obtain ⟨path, hcpath⟩ := Option.ne_none_iff_exists'.mp (hpath hvalid htype)
      exact absurd hcpath (hregular path hvalid htype)
    | socket => exact absurd htype (hsocket hvalid)

theorem Duplicated.cons (h₁ : Duplicated t opened fds [i] host (fun _ => answer) host₁)
    (h₂ : Duplicated t opened fds l host₁ answers host₂) (hi : i ∉ l)
    (hfds : Function.Injective fds) :
    Duplicated t opened fds (i :: l) host (Function.update answers i answer) host₂ where
  lookup := h₂.lookup.trans h₁.lookup
  descriptors fd hfd := by
    rw [h₂.descriptors fd fun j hj => hfd j (List.mem_cons_of_mem i hj)]
    refine h₁.descriptors fd fun j hj => ?_
    rw [List.mem_singleton.mp hj]
    exact hfd i List.mem_cons_self
  emptied file := by
    rintro ⟨j, hj, htruncates⟩
    by_cases hrest : ∃ j ∈ l, Truncates t opened j file
    · exact h₂.emptied file hrest
    · rcases List.mem_cons.mp hj with rfl | hj
      · rw [h₂.kept file hrest]
        exact h₁.emptied file ⟨j, List.mem_cons_self, htruncates⟩
      · exact absurd ⟨j, hj, htruncates⟩ hrest
  kept file hnone := by
    rw [h₂.kept file fun ⟨j, hj, htruncates⟩ => hnone ⟨j, List.mem_cons_of_mem i hj, htruncates⟩]
    refine h₁.kept file fun ⟨j, hj, htruncates⟩ => hnone ?_
    rw [List.mem_singleton.mp hj] at htruncates
    exact ⟨i, List.mem_cons_self, htruncates⟩
  copies j hj hvalid := by
    rcases List.mem_cons.mp hj with rfl | hj
    · rw [Function.update_self]
      have hcopy := h₁.copies j List.mem_cons_self hvalid
      -- The copies that follow leave the descriptor open.
      have hsame : host₂.descriptors (fds j) = host₁.descriptors (fds j) := by
        refine h₂.descriptors _ fun k hk heq => hi ?_
        rwa [hfds (Int.ofNat.inj heq)]
      unfold AnsweredFor at hcopy ⊢
      rwa [hsame]
    · have hne : j ≠ i := fun heq => hi (heq ▸ hj)
      rw [Function.update_of_ne hne]
      exact h₂.copies j hj hvalid

/-- The entries stay open on the host while others are copied. -/
theorem Duplicated.opens (h : Duplicated t opened fds l host answers host₁)
    (hopens : host.Opens t opened) (hunused : ∀ i ∈ l, host.descriptors (fds i) = none) :
    host₁.Opens t opened where
  descriptor j hvalid := by
    have hopen := hopens.descriptor j hvalid
    rw [← hopen]
    refine h.descriptors _ fun i hi heq => ?_
    rw [heq, hunused i hi] at hopen
    cases hopen
  path j hvalid path hcpath := by
    rw [h.lookup]
    exact hopens.path j hvalid path hcpath
  negative fd hfd := by
    rw [h.descriptors fd fun i _ heq => absurd hfd (by rw [heq]; omega)]
    exact hopens.negative fd hfd

/-- What the loop of `duplicate_files` does on the host. -/
theorem duplicateEntries_spec (hfds : Function.Injective fds)
    (hpaths : ∀ i, (t i).valid = true → (t i).fileType = .regular → (t i).hostCpath ≠ none) :
    ∀ {l : List (Fin maxFilesNr)} {host : Host}, l.Nodup → host.Opens t opened →
      (∀ i ∈ l, host.descriptors (fds i) = none) →
      Duplicated t opened fds l host (Host.duplicateEntries t fds l host).1
        (Host.duplicateEntries t fds l host).2 := by
  intro l
  induction l with
  | nil =>
    intro host _ _ _
    exact ⟨rfl, fun _ _ => rfl, by simp, fun _ _ => rfl, by simp⟩
  | cons i l ih =>
    intro host hnodup hopens hunused
    obtain ⟨hi, hnodup⟩ := List.nodup_cons.mp hnodup
    cases hstep : host.duplicate (t i) (fds i) with
    | mk answer host₁ =>
      have hone := duplicate_spec hopens (hpaths i) hstep
      have hused : ∀ k ∈ [i], host.descriptors (fds k) = none := by
        intro k hk
        rw [List.mem_singleton.mp hk]
        exact hunused i List.mem_cons_self
      have hunused₁ : ∀ j ∈ l, host₁.descriptors (fds j) = none := by
        intro j hj
        rw [hone.descriptors _ fun k hk heq => ?_]
        · exact hunused j (List.mem_cons_of_mem i hj)
        · rw [List.mem_singleton.mp hk] at heq
          exact hi (hfds (Int.ofNat.inj heq) ▸ hj)
      have hrest := ih hnodup (hone.opens hopens hused) hunused₁
      simp only [Host.duplicateEntries, hstep]
      exact hone.cons hrest hi hfds

/-- What `duplicate_files` does on the host. -/
theorem Host.Opens.duplicateFiles (hopens : host.Opens t opened) (hpicks : host.Picks fds)
    (hpaths : ∀ i, (t i).valid = true → (t i).fileType = .regular → (t i).hostCpath ≠ none) :
    Duplicated t opened fds (List.finRange maxFilesNr) host (host.duplicateFiles t fds).1
      (host.duplicateFiles t fds).2 :=
  duplicateEntries_spec hpicks.injective hpaths (List.nodup_finRange maxFilesNr) hopens
    fun i _ => hpicks.unused i

end Duplicated

end Hyrule
