import Hyrule.Fs.OpenFds

/-!
# Slots of a file table

`allocate_file_descriptor` takes the lowest slot that is not valid, and clears it
before it is filled.  A call that fails behind it clears the slot again.  That
this puts the table back as it was needs an invariant of the other slots: what is
not valid is zero (`FileTable.Cleared`).  Every call on a table keeps it.
-/

namespace Hyrule

open Lib Lib.Result

variable {t t' : FileTable} {fd rv : Word} {answer : HostAnswer} {i j : Fin maxFilesNr}

/-! ## Free slots -/

namespace FileTable

/-- The lowest slot from `m` on that is not valid. -/
structure LeastFree (t : FileTable) (m : Nat) (i : Fin maxFilesNr) : Prop where
  le : m ≤ i
  free : (t i).valid = false
  least : ∀ j : Fin maxFilesNr, m ≤ j → j < i → (t j).valid = true

/-- Every slot is valid. -/
def Full (t : FileTable) : Prop := ∀ i, (t i).valid = true

/-- What is not valid is zero. -/
def Cleared (t : FileTable) : Prop := ∀ i, (t i).valid = false → t i = .zero

theorem LeastFree.unique {m : Nat} (h : t.LeastFree m i) (h' : t.LeastFree m j) : i = j := by
  rcases Nat.lt_trichotomy i j with hlt | heq | hlt
  · have hvalid := h'.least i h.le hlt
    rw [h.free] at hvalid
    cases hvalid
  · exact Fin.ext heq
  · have hvalid := h.least j h'.le hlt
    rw [h'.free] at hvalid
    cases hvalid

/-- Where a slot is free, there is a lowest one. -/
theorem exists_leastFree {m : Nat} (hm : m ≤ i) (hfree : (t i).valid = false) :
    ∃ k, t.LeastFree m k := by
  induction i using WellFoundedLT.induction with
  | ind i ih =>
    by_cases hlower : ∃ j : Fin maxFilesNr, m ≤ j ∧ j < i ∧ (t j).valid = false
    · obtain ⟨j, hj, hlt, hjfree⟩ := hlower
      exact ih j hlt hj hjfree
    · refine ⟨i, hm, hfree, fun j hj hlt => ?_⟩
      by_contra hjfree
      exact hlower ⟨j, hj, hlt, Bool.eq_false_iff.mpr hjfree⟩

end FileTable

/-- A new slot. -/
def File.allocated (i : Fin maxFilesNr) : File := { File.zero with fd := i.val, valid := true }

/-- The lowest free slot is taken, unless the table is full. -/
theorem allocateFileDescriptor_cases (t : FileTable) :
    t.Full ∧ allocateFileDescriptor t = none ∨
      ∃ i, t.LeastFree 0 i ∧
        allocateFileDescriptor t = some (i, Function.update t i (.allocated i)) := by
  unfold allocateFileDescriptor
  rcases hfind : (List.finRange maxFilesNr).find? (fun i => !(t i).valid) with _ | i
  · refine Or.inl ⟨fun i => ?_, rfl⟩
    simpa using List.find?_eq_none.mp hfind i (List.mem_finRange i)
  · refine Or.inr ⟨i, ⟨Nat.zero_le _, by simpa using List.find?_some hfind, ?_⟩, rfl⟩
    intro j _ hlt
    obtain ⟨-, below, above, hsplit, hbelow⟩ := List.find?_eq_some_iff_append.mp hfind
    have hsorted := List.pairwise_lt_finRange maxFilesNr
    have hj : j ∈ below ++ i :: above := hsplit ▸ List.mem_finRange j
    rw [hsplit] at hsorted
    rcases List.mem_append.mp hj with hj | hj
    · simpa using hbelow j hj
    · have habove := (List.pairwise_cons.mp (List.pairwise_append.mp hsorted).2.1).1
      rcases List.mem_cons.mp hj with rfl | hj
      · exact absurd hlt (Nat.lt_irrefl _)
      · exact absurd (habove j hj) (Nat.lt_asymm hlt)

theorem allocateFileDescriptor_free (h : t.LeastFree 0 i) :
    allocateFileDescriptor t = some (i, Function.update t i (.allocated i)) := by
  rcases allocateFileDescriptor_cases t with ⟨hfull, -⟩ | ⟨j, hj, halloc⟩
  · have hvalid := hfull i
    rw [h.free] at hvalid
    cases hvalid
  · rw [h.unique hj]
    exact halloc

theorem allocateFileDescriptor_full (h : t.Full) : allocateFileDescriptor t = none := by
  rcases allocateFileDescriptor_cases t with ⟨-, halloc⟩ | ⟨i, hi, -⟩
  · exact halloc
  · have hvalid := h i
    rw [hi.free] at hvalid
    cases hvalid

/-- The slot of a call that fails behind the allocation is cleared. -/
theorem deallocateFileDescriptor_allocated :
    deallocateFileDescriptor (Function.update t i (.allocated i)) i =
      .ok (Function.update t i .zero) := by
  have hvalid : (Function.update t i (File.allocated i) i).valid = true := by
    rw [Function.update_self]
    rfl
  rw [deallocateFileDescriptor, check_true hvalid, ok_bind, Function.update_idem]
  rfl

/-! ## Cleared tables -/

namespace FileTable.Cleared

/-- A free slot of a cleared table is cleared already. -/
theorem clear (h : t.Cleared) (hi : (t i).valid = false) : Function.update t i .zero = t := by
  rw [← h i hi, Function.update_eq_self]

theorem update {f : File} (h : t.Cleared) (hf : f.valid = true ∨ f = .zero) :
    FileTable.Cleared (Function.update t i f) := by
  intro j hj
  by_cases hne : j = i
  · subst hne
    rw [Function.update_self] at hj ⊢
    rcases hf with hf | hf
    · rw [hf] at hj
      cases hj
    · exact hf
  · rw [Function.update_of_ne hne] at hj ⊢
    exact h j hj

end FileTable.Cleared

/-! ## Descriptors -/

/-- A descriptor of the table is bad if its entry is not valid. -/
theorem isBadDescriptor_eq (hfd : fd.toNat = j) : isBadDescriptor t fd = .ok !(t j).valid := by
  have hle : ¬ fd.toNat > maxFilesNr := by
    rw [hfd]
    exact Nat.not_lt.mpr (Nat.le_of_lt j.isLt)
  rw [isBadDescriptor, if_neg hle, file_eq hfd, ok_bind]
  rfl

/-- The source of a duplicate is not the slot that is filled. -/
theorem allocated_source (hi : (t i).valid = false) (hfd : fd.toNat = j)
    (hvalid : (t j).valid = true) :
    FileTable.file (Function.update t i (.allocated i)) fd = .ok (t j) := by
  have hne : j ≠ i := by
    rintro rfl
    rw [hi] at hvalid
    cases hvalid
  rw [file_eq hfd, Function.update_of_ne hne]

/-! ## Allocations -/

/-- The code that a call returns when the host refuses. -/
def HostAnswer.refusal : HostAnswer → Option Word
  | .fails e => some (-e)
  | .returns _ => none

/-- The call takes the lowest free slot and changes no other one.  If the host refuses,
or the table is full, it returns a code and changes nothing. -/
structure FileTable.Allocates (t : FileTable) (refusal : Option Word)
    (result : Result (Word × FileTable)) : Prop where
  takes : refusal = none → ∀ i, t.LeastFree 0 i → ∃ f : File, f.valid = true ∧
    result = .ok (BitVec.ofNat 32 i, Function.update t i f)
  refused : ∀ code ∈ refusal, ∀ i, t.LeastFree 0 i → result = .ok (code, t)
  full : t.Full → result = .ok (enomem, t)

theorem FileTable.full_or_leastFree (t : FileTable) : t.Full ∨ ∃ i, t.LeastFree 0 i := by
  rcases allocateFileDescriptor_cases t with ⟨hfull, -⟩ | ⟨i, hi, -⟩
  · exact Or.inl hfull
  · exact Or.inr ⟨i, hi⟩

/-- An allocation keeps a table cleared. -/
theorem FileTable.Allocates.cleared {refusal : Option Word} {result : Result (Word × FileTable)}
    (h : t.Allocates refusal result) (hcleared : t.Cleared) (hresult : result = .ok (rv, t')) :
    t'.Cleared := by
  rcases t.full_or_leastFree with hfull | ⟨i, hi⟩
  · rw [h.full hfull] at hresult
    cases hresult
    exact hcleared
  · cases hrefusal : refusal with
    | none =>
      obtain ⟨f, hf, htakes⟩ := h.takes hrefusal i hi
      rw [htakes] at hresult
      cases hresult
      exact hcleared.update (Or.inl hf)
    | some code =>
      rw [h.refused code hrefusal i hi] at hresult
      cases hresult
      exact hcleared

/-- `do_openat` with paths that fit their buffers. -/
theorem doOpenat_allocates {root cwd path hostCpath : CString} {dirfd flags mode : Word}
    (hcleared : t.Cleared) (hpath : openatPaths root cwd dirfd path = .ok hostCpath) :
    t.Allocates answer.refusal (doOpenat root cwd t dirfd path flags mode answer) := by
  unfold doOpenat
  rw [hpath, ok_bind]
  constructor
  · intro hrefusal i hi
    cases answer with
    | fails errno => cases hrefusal
    | returns hostFd =>
      simp only [allocateFileDescriptor_free hi, Function.update_self, Function.update_idem]
      exact ⟨_, rfl, rfl⟩
  · intro code hrefusal i hi
    cases answer with
    | returns hostFd => cases hrefusal
    | fails errno =>
      cases hrefusal
      simp only [allocateFileDescriptor_free hi, deallocateFileDescriptor_allocated, ok_bind,
        hcleared.clear hi.free]
      rfl
  · intro hfull
    simp only [allocateFileDescriptor_full hfull]
    rfl

section Duplicates

variable (hfd : fd.toNat = j) (hvalid : (t j).valid = true)

include hfd hvalid

/-- `do_fcntl_duplicate_fd` fills the lowest free slot, whatever the minimum. -/
theorem doFcntlDuplicateFd_free {hostFd : Nat} (hi : t.LeastFree 0 i) :
    doFcntlDuplicateFd t fd (.returns hostFd) =
      .ok (BitVec.ofNat 32 i, Function.update t i (duplicateOf i (t j) hostFd)) := by
  rw [doFcntlDuplicateFd, isBadDescriptor_eq hfd, hvalid, ok_bind, if_neg (by simp)]
  simp only [allocateFileDescriptor_free hi, allocated_source hi.free hfd hvalid, ok_bind,
    Function.update_self, Function.update_idem]
  rfl

theorem doFcntlDuplicateFd_full (hfull : t.Full) :
    doFcntlDuplicateFd t fd answer = .ok (enomem, t) := by
  rw [doFcntlDuplicateFd, isBadDescriptor_eq hfd, hvalid, ok_bind, if_neg (by simp)]
  simp only [allocateFileDescriptor_full hfull]
  rfl

theorem doFcntlDuplicateFd_allocates (hcleared : t.Cleared) :
    t.Allocates answer.refusal (doFcntlDuplicateFd t fd answer) := by
  refine ⟨?_, ?_, doFcntlDuplicateFd_full hfd hvalid⟩
  · intro hrefusal i hi
    cases answer with
    | fails errno => cases hrefusal
    | returns hostFd =>
      exact ⟨_, copyPath_valid _ _, doFcntlDuplicateFd_free hfd hvalid hi⟩
  · intro code hrefusal i hi
    cases answer with
    | returns hostFd => cases hrefusal
    | fails errno =>
      cases hrefusal
      rw [doFcntlDuplicateFd, isBadDescriptor_eq hfd, hvalid, ok_bind, if_neg (by simp)]
      simp only [allocateFileDescriptor_free hi, deallocateFileDescriptor_allocated, ok_bind,
        hcleared.clear hi.free]
      rfl

/-- `call_dup` does not notice that the host refuses. -/
theorem callDup_allocates : t.Allocates none (callDup t fd answer) := by
  rw [callDup, isBadDescriptor_eq hfd, hvalid, ok_bind, if_neg (by simp)]
  constructor
  · intro _ i hi
    simp only [allocateFileDescriptor_free hi, allocated_source hi.free hfd hvalid, ok_bind,
      Function.update_self, Function.update_idem]
    exact ⟨_, copyPath_valid _ _, rfl⟩
  · intro code hrefusal
    cases hrefusal
  · intro hfull
    simp only [allocateFileDescriptor_full hfull]
    rfl

end Duplicates

/-! ## Every call keeps a table cleared -/

namespace FileTable.Cleared

theorem doOpenat {root cwd path : CString} {dirfd flags mode : Word} (hcleared : t.Cleared)
    (h : Hyrule.doOpenat root cwd t dirfd path flags mode answer = .ok (rv, t')) : t'.Cleared := by
  obtain ⟨hostCpath, hpath, -⟩ := bind_eq_ok.mp h
  exact (doOpenat_allocates hcleared hpath).cleared hcleared h

theorem doClose (hcleared : t.Cleared) (h : Hyrule.doClose t fd answer = .ok (rv, t')) :
    t'.Cleared := by
  obtain ⟨bad, hbad, h⟩ := bind_eq_ok.mp h
  cases bad with
  | true =>
    cases h
    exact hcleared
  | false =>
    obtain ⟨j, hfd, -, -⟩ := valid?_of_good hbad
    obtain ⟨t₁, hset, h⟩ := bind_eq_ok.mp h
    cases h
    rw [setFile_eq hfd] at hset
    cases hset
    exact hcleared.update (Or.inr rfl)

theorem callDup (hcleared : t.Cleared) (h : Hyrule.callDup t fd answer = .ok (rv, t')) :
    t'.Cleared := by
  obtain ⟨bad, hbad, hrest⟩ := bind_eq_ok.mp h
  cases bad with
  | true =>
    cases hrest
    exact hcleared
  | false =>
    obtain ⟨j, hfd, hvalid, -⟩ := valid?_of_good hbad
    exact (callDup_allocates hfd hvalid).cleared hcleared h

theorem doFcntlDuplicateFd (hcleared : t.Cleared)
    (h : Hyrule.doFcntlDuplicateFd t fd answer = .ok (rv, t')) : t'.Cleared := by
  obtain ⟨bad, hbad, hrest⟩ := bind_eq_ok.mp h
  cases bad with
  | true =>
    cases hrest
    exact hcleared
  | false =>
    obtain ⟨j, hfd, hvalid, -⟩ := valid?_of_good hbad
    exact (doFcntlDuplicateFd_allocates hfd hvalid hcleared).cleared hcleared h

/-- `call_dup3` fills a slot that it has cleared, or that was clear. -/
theorem callDup3 {oldFd newFd : Word} {closed : HostAnswer} (hcleared : t.Cleared)
    (h : Hyrule.callDup3 t oldFd newFd closed answer = .ok (rv, t')) : t'.Cleared := by
  obtain ⟨bad, -, h⟩ := bind_eq_ok.mp h
  split at h
  next =>
    cases h
    exact hcleared
  next =>
    split at h
    next =>
      cases h
      exact hcleared
    next =>
      split at h
      next =>
        cases h
        exact hcleared
      next =>
        obtain ⟨t₁, hclose, h⟩ := bind_eq_ok.mp h
        obtain ⟨f, -, h⟩ := bind_eq_ok.mp h
        obtain ⟨source, -, h⟩ := bind_eq_ok.mp h
        obtain ⟨t₂, hset, h⟩ := bind_eq_ok.mp h
        cases h
        have hcleared₁ : t₁.Cleared := by
          obtain ⟨target, -, hclose⟩ := bind_eq_ok.mp hclose
          split at hclose
          next =>
            obtain ⟨⟨rv, t₂⟩, hclosed, hclose⟩ := bind_eq_ok.mp hclose
            cases hclose
            exact hcleared.doClose hclosed
          next =>
            cases hclose
            exact hcleared
        unfold FileTable.setFile at hset
        split at hset
        next =>
          cases hset
          exact hcleared₁.update (Or.inl (copyPath_valid _ _))
        next => cases hset

/-- The copy of a table is cleared, whatever the table. -/
theorem duplicateFiles {answers : Fin maxFilesNr → HostAnswer}
    (h : Hyrule.duplicateFiles t answers = .ok t') : t'.Cleared := by
  intro i hi
  have hcopy := duplicateFiles_file h i
  have hinvalid : (t i).valid = false := (duplicateFile_ok hcopy).1 ▸ hi
  rw [duplicateFile, if_pos hinvalid] at hcopy
  exact (Except.ok.inj hcopy).symm

theorem zero : FileTable.zero.Cleared := fun _ _ => rfl

end FileTable.Cleared

end Hyrule
