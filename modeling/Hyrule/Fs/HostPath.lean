import Hyrule.Fs.Path
import Hyrule.Lib.Transition

/-!
# Host paths

`do_openat`, `do_statx`, `do_readlinkat` and `do_unlinkat` of `vfs.c`, up to the
path they hand to the host, and `call_chdir` of `syscall.c`.  The host path is the
root, the directory and the guest path, one directly behind the other; the guest
path is canonicalised before and the whole after.

The directory is the working directory for a relative path with the descriptor
`AT_FDCWD`, and empty otherwise.  `call_chdir` leaves a slash at both ends of the
working directory.  So the seams are at slashes, but for one case: the root does
not end in a slash, the directory is empty, and the guest path keeps a first word
without a slash.  That word then extends the last component of the root.
`hostPath_confined_iff` says that the host path is below the root exactly in the
other cases.
-/

namespace Hyrule

open Lib Lib.Result

/-! ## The source -/

/-- `AT_FDCWD`. -/
def atFdcwd : Word := -100

/-- The size of `root` and `cwd`. -/
def nameSize : Nat := 128

/-- The path behind its leading spaces. -/
def CString.skipSpaces (path : CString) : CString where
  bytes := path.bytes.dropWhile (· = space)
  noNul h := path.noNul ((List.dropWhile_suffix _).subset h)

/-- The path is relative: behind its leading spaces it does not start with a slash. -/
def CString.isRelative (path : CString) : Bool := path.skipSpaces.byteAt 0 ≠ slash

/-- `append_string`, into a buffer of `MAX_PATH` bytes. -/
def appendString (dst : List Byte) (substring : CString) : Result (List Byte) := do
  let dst ← substring.bytes.foldlM putByte dst
  let _ ← putByte dst nul
  return dst

/-- The format `"%s/%s"`, into a buffer of `MAX_PATH` bytes. -/
def formatPath (dir path : CString) : Result CString := do
  let dst ← appendString [] dir
  let dst ← appendString dst slashString
  return CString.ofBuffer (← appendString dst path)

/-- `relative_dir_path`, with what is done about a descriptor other than
`AT_FDCWD`. -/
def relativeDirectory (otherDirectory : Result CString) (cwd : CString) (dirfd : Word)
    (path : CString) : Result CString :=
  if path.isRelative then if dirfd = atFdcwd then return cwd else otherDirectory
  else return CString.empty

/-- What the path calls have in common: the canonical host path of a guest path.
They differ in what they do with a relative path and a descriptor other than
`AT_FDCWD`. -/
def composeHostPath (otherDirectory : Result CString) (root cwd : CString) (dirfd : Word)
    (path : CString) : Result CString := do
  let guestCpath ← canonicalizePathName path
  let relativeDirPath ← relativeDirectory otherDirectory cwd dirfd path
  let hostPath ← appendString [] root
  let hostPath ← appendString hostPath relativeDirPath
  let hostPath ← appendString hostPath guestCpath
  canonicalizePathName (CString.ofBuffer hostPath)

/-- `host_cpath` of `do_openat`. -/
def openatHostPath := composeHostPath (throw .assertion)

/-- `host_cpath` of `do_statx`. -/
def statxHostPath := composeHostPath (return CString.empty)

/-- `host_cpath` of `do_readlinkat`. -/
def readlinkatHostPath := composeHostPath (return CString.empty)

/-- `host_cpath` of `do_unlinkat`. -/
def unlinkatHostPath := composeHostPath (return CString.empty)

/-- The calls that hand a path to the host. -/
inductive PathCall where
  | openat
  | statx
  | readlinkat
  | unlinkat
deriving DecidableEq

/-- The path that a call hands to the host. -/
def PathCall.hostPath : PathCall → CString → CString → Word → CString → Result CString
  | .openat => openatHostPath
  | .statx => statxHostPath
  | .readlinkat => readlinkatHostPath
  | .unlinkat => unlinkatHostPath

/-- `strcpy` to `root` or `cwd`. -/
def copyName (name : CString) : Result CString :=
  if name.length < nameSize then return name else throw .outOfBounds

/-- `cpath` of `call_chdir`. -/
def chdirPath (cwd path : CString) : Result CString :=
  if path.isRelative then do canonicalizePathName (← formatPath cwd path.skipSpaces)
  else canonicalizePathName path.skipSpaces

/-- `call_chdir`: the new working directory. -/
def callChdir (cwd path : CString) : Result CString := do
  let cpath ← chdirPath cwd path
  let dst ← appendString [] cpath
  let dst ← appendString dst slashString
  copyName (CString.ofBuffer dst)

/-- The working directories from the start-up on, with paths that fit into a
buffer. -/
def chdirRuns : System CString CString where
  init cwd := cwd = slashString
  step cwd path cwd' := path.length < maxPath ∧ callChdir cwd path = .ok cwd'

/-! ## Buffers -/

theorem putBytes_error {bytes : List Byte} : ∀ {dst : List Byte}, dst.length ≤ maxPath →
    maxPath < dst.length + bytes.length → bytes.foldlM putByte dst = .error .outOfBounds := by
  induction bytes with
  | nil => intro dst hle hlt; rw [List.length_nil] at hlt; omega
  | cons b bytes ih =>
    intro dst hle hlt
    rw [List.length_cons] at hlt
    rw [List.foldlM_cons, putByte]
    by_cases hfits : dst.length < maxPath
    · rw [if_pos hfits, pure_eq_ok, ok_bind]
      refine ih ?_ ?_
      · rw [List.length_append, List.length_singleton]
        omega
      · rw [List.length_append, List.length_singleton]
        omega
    · rw [if_neg hfits]
      rfl

/-- `append_string` appends, if there is room for the string and its zero. -/
theorem appendString_eq (dst : List Byte) (s : CString) (hdst : dst.length ≤ maxPath) :
    appendString dst s = if dst.length + s.bytes.length < maxPath then .ok (dst ++ s.bytes)
      else .error .outOfBounds := by
  by_cases hroom : dst.length + s.bytes.length ≤ maxPath
  · have hput : putByte (dst ++ s.bytes) nul =
        if dst.length + s.bytes.length < maxPath then .ok (dst ++ s.bytes ++ [nul])
        else .error .outOfBounds := by
      rw [putByte, List.length_append]
      rfl
    rw [appendString, putBytes_eq hroom, ok_bind, hput]
    split <;> rfl
  · rw [appendString, putBytes_error hdst (by omega), if_neg (by omega)]
    rfl

theorem CString.ofBuffer_bytes {bytes : List Byte} (h : nul ∉ bytes) :
    (CString.ofBuffer bytes).bytes = bytes := by
  show bytes.takeWhile (fun b => decide (b ≠ nul)) = bytes
  rw [List.takeWhile_eq_self_iff]
  intro b hb
  simpa using fun heq : b = nul => h (heq ▸ hb)

/-- Strings that are appended in a buffer fit into it, or it overflows. -/
theorem appendStrings_cases (strings : List CString) : ∀ (dst : List Byte), dst.length < maxPath →
    (strings.foldlM appendString dst = .ok (dst ++ (strings.map CString.bytes).flatten) ∧
      (dst ++ (strings.map CString.bytes).flatten).length < maxPath) ∨
    strings.foldlM appendString dst = .error .outOfBounds := by
  induction strings with
  | nil => intro dst h; exact Or.inl ⟨by simp, by simpa using h⟩
  | cons s strings ih =>
    intro dst h
    rw [List.foldlM_cons, appendString_eq dst s (by omega)]
    split
    next hfits =>
      rw [ok_bind, List.map_cons, List.flatten_cons, ← List.append_assoc]
      exact ih _ (by rwa [List.length_append])
    next => exact Or.inr rfl

theorem noNul_flatten (strings : List CString) : nul ∉ (strings.map CString.bytes).flatten := by
  intro hmem
  obtain ⟨bytes, hbytes, hmem⟩ := List.mem_flatten.mp hmem
  obtain ⟨s, -, rfl⟩ := List.mem_map.mp hbytes
  exact s.noNul hmem

/-- The canonical path of strings that are appended in a buffer is computed, or a
buffer overflows. -/
theorem canonicalize_appended (strings : List CString) :
    (∃ host, (do
        let buffer ← strings.foldlM appendString []
        canonicalizePathName (CString.ofBuffer buffer)) = .ok host ∧
        host.bytes = canonical (strings.map CString.bytes).flatten) ∨
      (do
        let buffer ← strings.foldlM appendString []
        canonicalizePathName (CString.ofBuffer buffer)) = .error .outOfBounds := by
  rcases appendStrings_cases strings [] (by decide) with ⟨hrun, hfits⟩ | hrun
  · rw [List.nil_append] at hrun hfits
    have hbytes := CString.ofBuffer_bytes (noNul_flatten strings)
    have hcases := canonicalizePathName_cases (by rwa [hbytes])
    rw [hrun, ok_bind]
    rwa [hbytes] at hcases
  · exact Or.inr (by rw [hrun]; rfl)

/-! ## The working directory -/

/-- What `call_chdir` makes of a working directory. -/
structure CString.IsDirectory (cwd : CString) : Prop where
  first : cwd.bytes.head? = some slash
  last : cwd.bytes.getLast? = some slash
  no_up : ∀ p ∈ components cwd.bytes, p ≠ up

theorem isDirectory_of_canonical {path : List Byte} (h : path.head? = some slash) {cwd : CString}
    (hcwd : cwd.bytes = canonical path ++ [slash]) : cwd.IsDirectory := by
  obtain ⟨-, hhead⟩ := canonical_absolute h
  refine ⟨?_, by simp [hcwd], ?_⟩
  · rw [hcwd]
    rcases hhead with hnil | hhead
    · simp [hnil]
    · simp [hhead]
  · rw [hcwd, components, parts_append (Or.inr (Or.inl rfl))]
    intro p hp
    rcases List.mem_append.mp hp with hp | hp
    · exact canonical_no_up path p hp
    · simp [parts_cons_sep] at hp

theorem CString.head_skipSpaces {path : CString} (h : path.isRelative = false) :
    path.skipSpaces.bytes.head? = some slash := by
  have hbyte : path.skipSpaces.bytes.getD 0 nul = slash := by
    simpa [CString.isRelative, CString.byteAt] using h
  cases hbytes : path.skipSpaces.bytes with
  | nil =>
    rw [hbytes] at hbyte
    exact absurd hbyte (by decide)
  | cons c rest =>
    rw [hbytes] at hbyte
    exact congrArg some hbyte

theorem CString.length_skipSpaces (path : CString) :
    path.skipSpaces.bytes.length ≤ path.bytes.length :=
  (List.dropWhile_suffix _).length_le

theorem copyName_eq_ok {name name' : CString} :
    copyName name = .ok name' ↔ name.length < nameSize ∧ name = name' := by
  unfold copyName
  split
  next h => simp [h]
  next h => simp [h]

/-- The new working directory is a canonical absolute path and a slash. -/
theorem callChdir_bytes {cwd cwd' path : CString} (hpath : path.length < maxPath)
    (h : callChdir cwd path = .ok cwd') :
    ∃ target : List Byte, cwd'.bytes = canonical target ++ [slash] ∧
      (path.isRelative = true → target = cwd.bytes ++ [slash] ++ path.skipSpaces.bytes) ∧
      (path.isRelative = false → target = path.skipSpaces.bytes) := by
  obtain ⟨cpath, hcpath, h⟩ := bind_eq_ok.mp h
  have hcwd : cwd'.bytes = cpath.bytes ++ [slash] := by
    have hrun : (do
        let buffer ← [cpath, slashString].foldlM appendString []
        copyName (CString.ofBuffer buffer)) = .ok cwd' := by
      simpa only [List.foldlM_cons, List.foldlM_nil, bind_assoc, pure_bind] using h
    rcases appendStrings_cases [cpath, slashString] [] (by decide) with ⟨hbuffer, -⟩ | hbuffer
    · rw [hbuffer, ok_bind, List.nil_append] at hrun
      rw [← (copyName_eq_ok.mp hrun).2, CString.ofBuffer_bytes (noNul_flatten _)]
      simp [slashString]
    · rw [hbuffer] at hrun
      cases hrun
  cases hrel : path.isRelative with
  | false =>
    rw [chdirPath, hrel] at hcpath
    refine ⟨path.skipSpaces.bytes, ?_, by simp, fun _ => rfl⟩
    rcases canonicalizePathName_cases (Nat.lt_of_le_of_lt path.length_skipSpaces hpath) with
      ⟨dst, hrun, hbytes⟩ | hrun
    · have : cpath = dst := Except.ok.inj (hcpath.symm.trans hrun)
      rw [hcwd, this, hbytes]
    · cases hcpath.symm.trans hrun
  | true =>
    rw [chdirPath, hrel] at hcpath
    refine ⟨cwd.bytes ++ [slash] ++ path.skipSpaces.bytes, ?_, fun _ => rfl, by simp⟩
    have hjoin : (do
        let buffer ← [cwd, slashString, path.skipSpaces].foldlM appendString []
        canonicalizePathName (CString.ofBuffer buffer)) = .ok cpath := by
      simpa only [List.foldlM_cons, List.foldlM_nil, bind_assoc, pure_bind, formatPath, if_true]
        using hcpath
    rcases canonicalize_appended [cwd, slashString, path.skipSpaces] with
      ⟨dst, hrun, hbytes⟩ | hrun
    · have : cpath = dst := Except.ok.inj (hjoin.symm.trans hrun)
      rw [hcwd, this, hbytes]
      simp [slashString]
    · cases hjoin.symm.trans hrun

/-- From a directory, the canonical path is that of an absolute one. -/
theorem callChdir_absolute {cwd cwd' path : CString} (hcwd : cwd.IsDirectory)
    (hpath : path.length < maxPath) (h : callChdir cwd path = .ok cwd') :
    ∃ target : List Byte, target.head? = some slash ∧ cwd'.bytes = canonical target ++ [slash] := by
  obtain ⟨target, hbytes, hrelative, habsolute⟩ := callChdir_bytes hpath h
  refine ⟨target, ?_, hbytes⟩
  cases hrel : path.isRelative with
  | false =>
    rw [habsolute hrel]
    exact path.head_skipSpaces hrel
  | true =>
    rw [hrelative hrel, List.append_assoc, List.head?_append, hcwd.first]
    rfl

/-- Every working directory has a slash at both ends, and no component `".."`. -/
theorem isDirectory_of_reachable {cwd : CString} (h : chdirRuns.Reachable cwd) :
    cwd.IsDirectory := by
  refine h.invariant ?_ ?_
  · rintro cwd rfl
    exact ⟨rfl, rfl, by decide⟩
  · rintro cwd path cwd' hcwd ⟨hpath, hstep⟩
    obtain ⟨target, hhead, hbytes⟩ := callChdir_absolute hcwd hpath hstep
    exact isDirectory_of_canonical hhead hbytes

/-! ## Confinement -/

/-- What a call does with a relative path and a descriptor other than `AT_FDCWD`. -/
def PathCall.otherDirectory : PathCall → Result CString
  | .openat => throw .assertion
  | .statx | .readlinkat | .unlinkat => return CString.empty

theorem PathCall.hostPath_eq (call : PathCall) :
    call.hostPath = composeHostPath call.otherDirectory := by
  cases call <;> rfl

/-- A call that has a directory hands over the canonical path of the three strings,
unless a buffer overflows. -/
theorem composeHostPath_cases {otherDirectory : Result CString} {root cwd dir path : CString}
    {dirfd : Word} (hpath : path.length < maxPath)
    (hdir : relativeDirectory otherDirectory cwd dirfd path = .ok dir) :
    (∃ host, composeHostPath otherDirectory root cwd dirfd path = .ok host ∧
      host.bytes = canonical (root.bytes ++ dir.bytes ++ canonical path.bytes)) ∨
    composeHostPath otherDirectory root cwd dirfd path = .error .outOfBounds := by
  rcases canonicalizePathName_cases hpath with ⟨guestCpath, hguest, hbytes⟩ | hguest
  · have hrun : composeHostPath otherDirectory root cwd dirfd path = (do
        let buffer ← [root, dir, guestCpath].foldlM appendString []
        canonicalizePathName (CString.ofBuffer buffer)) := by
      simp only [composeHostPath, hguest, hdir, ok_bind, List.foldlM_cons, List.foldlM_nil,
        bind_assoc, pure_bind]
    have hcases := canonicalize_appended [root, dir, guestCpath]
    rw [← hrun] at hcases
    simpa [hbytes] using hcases
  · exact Or.inr (by rw [composeHostPath, hguest]; rfl)

/-- At a slash, the components of the root stay in front. -/
theorem confined_of_seam {root rest : List Byte} (hroot : root.head? = some slash)
    (hplain : ∀ p ∈ components root, p ≠ here ∧ p ≠ up)
    (hrest : ∀ p ∈ components rest, p ≠ up)
    (hseam : root.getLast? = some slash ∨ rest.head? = some slash ∨ rest = []) :
    components root <+: components (canonical (root ++ rest)) := by
  have hhead : (root ++ rest).head? = some slash := by rw [List.head?_append, hroot]; rfl
  have hcomps : components (root ++ rest) = components root ++ components rest :=
    parts_append hseam
  rw [(canonical_absolute hhead).1, hcomps, resolve_append, resolve_of_plain [] hplain,
    List.nil_append]
  exact resolve_of_no_up hrest

/-- A root that does not end in a slash ends in a component. -/
theorem exists_last_component {root : List Byte} (hroot : root.head? = some slash)
    (hlast : root.getLast? ≠ some slash) :
    ∃ pre last, root = pre ++ slash :: last ∧ last ≠ [] ∧ slash ∉ last := by
  have hmem : slash ∈ root.reverse := List.mem_reverse.mpr (List.mem_of_head? hroot)
  obtain ⟨l₁, l₂, hsplit, hnot⟩ := List.eq_append_cons_of_mem hmem
  have hroot' : root = l₂.reverse ++ slash :: l₁.reverse := by
    have := congrArg List.reverse hsplit
    simpa using this
  refine ⟨l₂.reverse, l₁.reverse, hroot', ?_, by simpa using hnot⟩
  rintro hnil
  rw [hroot', hnil] at hlast
  simp at hlast

/-- Elsewhere, a first word extends the last component of the root. -/
theorem not_confined_of_word {root path : List Byte} (hroot : root.head? = some slash)
    (hplain : ∀ p ∈ components root, p ≠ here ∧ p ≠ up) (hlast : root.getLast? ≠ some slash)
    (hstays : FirstWordStays path) :
    ¬ components root <+: components (canonical (root ++ canonical path)) := by
  obtain ⟨pre, last, rfl, hlastNe, hlastSlash⟩ := exists_last_component hroot hlast
  obtain ⟨ps, hcanonical, hps, -⟩ := canonical_of_stays hstays
  have hword := hstays.1
  obtain ⟨hwordSlash, -⟩ := canonicalWords_first hword
  have hcompsRoot : components (pre ++ slash :: last) = components pre ++ [last] := by
    rw [components, parts_append_sep, parts_of_not_mem hlastSlash hlastNe]
    rfl
  have hcomps : components (pre ++ slash :: last ++ canonical path) =
      components pre ++ (last ++ firstWord path) :: ps := by
    have hglued : pre ++ slash :: last ++ canonical path =
        pre ++ slash :: ((last ++ firstWord path) ++ (slashed ps).flatten) := by
      rw [hcanonical]
      simp
    have hseam : parts slash (last ++ firstWord path) = [last ++ firstWord path] :=
      parts_of_not_mem (by simp [hlastSlash, hwordSlash]) (by simp [hlastNe])
    have hslashed : parts slash (slashed ps).flatten = ps :=
      components_slashed fun p hp => (hps p hp).1
    rw [hglued, components, parts_append_sep, parts_append (Or.inr (head_slashed ps).symm), hseam,
      hslashed]
    rfl
  rw [hcompsRoot] at hplain
  have hglued : last ++ firstWord path ≠ here ∧ last ++ firstWord path ≠ up := by
    have hlengths : 0 < last.length ∧ 0 < (firstWord path).length :=
      ⟨List.length_pos_iff.mpr hlastNe, List.length_pos_iff.mpr hword⟩
    refine ⟨fun heq => ?_, fun heq => ?_⟩
    · have := congrArg List.length heq
      simp only [List.length_append, here, List.length_singleton] at this
      omega
    · -- Only `"."` twice makes `".."`, and the root has no `"."`.
      have hone : last.length = 1 := by
        have := congrArg List.length heq
        simp only [List.length_append, up, List.length_cons, List.length_nil] at this
        omega
      obtain ⟨b, rfl⟩ := List.length_eq_one_iff.mp hone
      rw [up, List.singleton_append, List.cons.injEq] at heq
      exact (hplain [b] (by simp)).1 (by rw [heq.1]; rfl)
  have hplain' : ∀ p ∈ components pre ++ (last ++ firstWord path) :: ps, p ≠ here ∧ p ≠ up := by
    intro p hp
    rcases List.mem_append.mp hp with hp | hp
    · exact hplain p (by simp [hp])
    · rcases List.mem_cons.mp hp with rfl | hp
      · exact hglued
      · exact (hps p hp).2
  have hhead : (pre ++ slash :: last ++ canonical path).head? = some slash := by
    rw [List.head?_append, hroot]
    rfl
  rw [(canonical_absolute hhead).1, hcomps, resolve_of_plain [] hplain', List.nil_append,
    hcompsRoot, List.prefix_append_right_inj]
  rintro ⟨rest, hrest⟩
  rw [List.singleton_append, List.cons.injEq] at hrest
  exact hword (List.self_eq_append_right.mp hrest.1)

/-- The root ends in a slash, the working directory stands between root and path (or
the call gives up), or the first word of the path does not stay. -/
def PathCall.Seamless (call : PathCall) (root : CString) (dirfd : Word) (path : CString) : Prop :=
  root.bytes.getLast? = some slash ∨
  path.isRelative = true ∧ (dirfd = atFdcwd ∨ call = .openat) ∨
  ¬ FirstWordStays path.bytes

/-- The directory of a call, if it does not give up. -/
theorem PathCall.directory_cases (call : PathCall) (cwd : CString) (dirfd : Word)
    (path : CString) :
    (path.isRelative = true ∧ dirfd = atFdcwd ∧
      relativeDirectory call.otherDirectory cwd dirfd path = .ok cwd) ∨
    (path.isRelative = true ∧ dirfd ≠ atFdcwd ∧ call = .openat ∧
      relativeDirectory call.otherDirectory cwd dirfd path = .error .assertion) ∨
    (¬ (path.isRelative = true ∧ (dirfd = atFdcwd ∨ call = .openat)) ∧
      relativeDirectory call.otherDirectory cwd dirfd path = .ok CString.empty) := by
  unfold relativeDirectory
  cases hrel : path.isRelative with
  | false => exact Or.inr (Or.inr ⟨by simp, rfl⟩)
  | true =>
    by_cases hfd : dirfd = atFdcwd
    · exact Or.inl ⟨rfl, hfd, by simp [hfd]⟩
    · refine Or.inr ?_
      cases call with
      | openat => exact Or.inl ⟨rfl, hfd, rfl, by simp [hfd, PathCall.otherDirectory]⟩
      | _ => exact Or.inr ⟨by simp [hfd], by simp [hfd, PathCall.otherDirectory]⟩

/-- Whatever path a call hands to the host is below the root, exactly if the call is
seamless.  A call whose buffers do not overflow hands over a path, unless it is an
`openat` of a relative path with another descriptor than `AT_FDCWD`. -/
theorem hostPath_confined_iff {root cwd : CString} (hroot : root.bytes.head? = some slash)
    (hplain : ∀ p ∈ components root.bytes, p ≠ here ∧ p ≠ up)
    (hcwd : chdirRuns.Reachable cwd) (call : PathCall) (dirfd : Word) {path : CString}
    (hpath : path.length < maxPath)
    (hfits : call.hostPath root cwd dirfd path ≠ .error .outOfBounds) :
    ((∀ host, call.hostPath root cwd dirfd path = .ok host →
      components root.bytes <+: components host.bytes) ↔ call.Seamless root dirfd path) ∧
    ((∃ host, call.hostPath root cwd dirfd path = .ok host) ∨
      call = .openat ∧ path.isRelative = true ∧ dirfd ≠ atFdcwd) := by
  have hdirectory := isDirectory_of_reachable hcwd
  rw [call.hostPath_eq] at hfits ⊢
  rcases call.directory_cases cwd dirfd path with ⟨hrel, hfd, hdir⟩ | ⟨hrel, hfd, hopen, hdir⟩ |
    ⟨hnot, hdir⟩
  · -- The working directory has a slash at both ends.
    obtain ⟨host, hrun, hbytes⟩ := (composeHostPath_cases hpath hdir).resolve_right hfits
    refine ⟨⟨fun _ => Or.inr (Or.inl ⟨hrel, Or.inl hfd⟩), fun _ host' hrun' => ?_⟩,
      Or.inl ⟨host, hrun⟩⟩
    rw [Except.ok.inj (hrun'.symm.trans hrun), hbytes, List.append_assoc]
    refine confined_of_seam hroot hplain ?_ (Or.inr (Or.inl ?_))
    · intro p hp
      rw [components, parts_append (Or.inl hdirectory.last)] at hp
      rcases List.mem_append.mp hp with hp | hp
      · exact hdirectory.no_up p hp
      · exact canonical_no_up path.bytes p hp
    · rw [List.head?_append, hdirectory.first]
      rfl
  · have hfail : ∀ host, composeHostPath call.otherDirectory root cwd dirfd path ≠ .ok host := by
      intro host hrun
      obtain ⟨guestCpath, -, hrun⟩ := bind_eq_ok.mp hrun
      rw [hdir] at hrun
      cases hrun
    exact ⟨⟨fun _ => Or.inr (Or.inl ⟨hrel, Or.inr hopen⟩), fun _ host hrun =>
      absurd hrun (hfail host)⟩, Or.inr ⟨hopen, hrel, hfd⟩⟩
  · obtain ⟨host, hrun, hbytes⟩ := (composeHostPath_cases hpath hdir).resolve_right hfits
    rw [CString.empty, List.append_nil] at hbytes
    refine ⟨⟨fun hconfined => ?_, fun hseamless host' hrun' => ?_⟩, Or.inl ⟨host, hrun⟩⟩
    · by_contra hseamless
      rw [PathCall.Seamless, not_or, not_or, not_not] at hseamless
      refine not_confined_of_word hroot hplain hseamless.1 hseamless.2.2 ?_
      rw [← hbytes]
      exact hconfined host hrun
    · rw [Except.ok.inj (hrun'.symm.trans hrun), hbytes]
      refine confined_of_seam hroot hplain (canonical_no_up path.bytes) ?_
      rcases hseamless with hlast | hdirectory | hstays
      · exact Or.inl hlast
      · exact absurd hdirectory hnot
      · exact Or.inr (canonical_of_not_stays hstays).1.symm

/-- With the root `"/srv/"`, `statx` of `"x"` relative to a directory descriptor stays
below the root. -/
theorem hostPath_confined_iff_slash_root :
    ∃ host, PathCall.statx.hostPath (.ofBuffer [47, 115, 114, 118, 47]) slashString 3
        (.ofBuffer [120]) = .ok host ∧
      components (CString.ofBuffer [47, 115, 114, 118, 47]).bytes <+: components host.bytes := by
  obtain ⟨hiff, hreturns⟩ := hostPath_confined_iff
    (show (CString.ofBuffer [47, 115, 114, 118, 47]).bytes.head? = some slash by decide)
    (by decide +kernel) (System.Reachable.init (M := chdirRuns) rfl) .statx 3
    (show (CString.ofBuffer [120]).length < maxPath by decide) (by decide +kernel)
  obtain ⟨host, hrun⟩ := hreturns.resolve_right (by decide)
  exact ⟨host, hrun, hiff.mpr (Or.inl (by decide)) host hrun⟩

/-- With the root `"/srv"`, the same call hands `"/srvx"` to the host. -/
theorem statx_escapes_root :
    (CString.ofBuffer [47, 115, 114, 118]).bytes.head? = some slash ∧
    (∀ p ∈ components (CString.ofBuffer [47, 115, 114, 118]).bytes, p ≠ here ∧ p ≠ up) ∧
    chdirRuns.Reachable slashString ∧
    ∃ host, PathCall.statx.hostPath (.ofBuffer [47, 115, 114, 118]) slashString 3
        (.ofBuffer [120]) = .ok host ∧
      ¬ components (CString.ofBuffer [47, 115, 114, 118]).bytes <+: components host.bytes := by
  refine ⟨by decide, by decide +kernel, .init rfl, .ofBuffer [47, 115, 114, 118, 120], ?_, ?_⟩
  · decide +kernel
  · decide +kernel

end Hyrule
