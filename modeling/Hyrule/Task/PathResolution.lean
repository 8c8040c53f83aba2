import Hyrule.Fs.Files
import Hyrule.Fs.Resolution
import Hyrule.Task.Forest

/-!
# Paths that are opened and executed

`do_openat` canonicalises the path of the guest, puts the root and the working
directory in front, and canonicalises again.  `call_execve` puts the working directory
in front first.  Both should come to the components of the root, of the directory and
of the path, with the dots resolved (`resolvedPath`).

`resolvesAlike_iff` says when they do.  A relative path that is canonicalised alone can
lose its first name, since the first word is measured as if it had a slash, and it
cannot climb out of a directory that is not yet there.  The same happens to the first
name of a relative root.
-/

namespace Hyrule

open Lib Lib.Result

variable {root cwd path : CString}

/-! ## What is expected, and when it holds -/

/-- The directory that a path starts from. -/
def startDirectory (cwd path : CString) : List Byte :=
  if path.isRelative then cwd.bytes else []

/-- The components of the root, and those of the path from where it starts, with the dots
resolved. -/
def resolvedPath (root cwd path : CString) : List (List Byte) :=
  resolve [] (components root.bytes) ++
    resolve [] (components (startDirectory cwd path) ++ components path.bytes)

/-- `do_openat` and `call_execve` hand paths to the host that have these components. -/
def ResolvesAlike (root cwd path : CString) : Prop :=
  ∃ opened loaded, openatPaths root cwd atFdcwd path = .ok opened ∧
    execveHostPath ⟨root, cwd⟩ path = .ok loaded ∧
    components opened.bytes = resolvedPath root cwd path ∧
    components loaded.bytes = resolvedPath root cwd path

/-- The path that `call_execve` canonicalises first. -/
def executedPath (cwd path : CString) : List Byte :=
  if path.isRelative then cwd.bytes ++ slash :: path.bytes else path.bytes

/-- The strings that are computed are shorter than 511 bytes. -/
structure ShortPaths (root cwd path : CString) : Prop where
  given : path.bytes.length < 511
  opened : (root.bytes ++ startDirectory cwd path ++ canonical path.bytes).length < 511
  executed : (executedPath cwd path).length < 511
  loaded : (root.bytes ++ slash :: canonical (executedPath cwd path)).length < 511

/-! ## The paths -/

theorem appendStrings_eq (strings : List CString) : ∀ (dst : List Byte),
    (dst ++ (strings.map CString.bytes).flatten).length < maxPath →
    strings.foldlM appendString dst = .ok (dst ++ (strings.map CString.bytes).flatten) := by
  induction strings with
  | nil => intro dst _; simp
  | cons s strings ih =>
    intro dst h
    rw [List.map_cons, List.flatten_cons, ← List.append_assoc] at h ⊢
    have hfits : dst.length + s.bytes.length < maxPath := by
      rw [List.length_append, List.length_append] at h
      omega
    rw [List.foldlM_cons, appendString_eq dst s (by omega), if_pos hfits]
    exact ih _ h

/-- Strings that are short enough together are appended and canonicalised. -/
theorem canonicalize_short (strings : List CString)
    (h : ((strings.map CString.bytes).flatten).length < 511) :
    ∃ host, (do
        let buffer ← strings.foldlM appendString []
        canonicalizePathName (CString.ofBuffer buffer)) = .ok host ∧
      host.bytes = canonical (strings.map CString.bytes).flatten := by
  have hbytes := CString.ofBuffer_bytes (noNul_flatten strings)
  have hfits : (CString.ofBuffer (strings.map CString.bytes).flatten).bytes.length + 2 ≤
      maxPath := by
    rw [hbytes, maxPath]
    omega
  obtain ⟨host, hrun, hhost⟩ := canonicalizePathName_eq hfits
  refine ⟨host, ?_, by rw [hhost, hbytes]⟩
  rw [appendStrings_eq strings [] (by rw [List.nil_append, maxPath]; omega), ok_bind,
    List.nil_append, hrun]

theorem skipSpaces_eq (h : path.bytes.head? ≠ some space) : path.skipSpaces = path := by
  obtain ⟨bytes, noNul⟩ := path
  rw [CString.skipSpaces, CString.mk.injEq]
  cases bytes with
  | nil => rfl
  | cons b rest =>
    have hb : b ≠ space := fun heq => h (congrArg some heq)
    simp [hb]

theorem directory_eq (cwd path : CString) :
    ∃ dir, relativeDirectory (throw .assertion) cwd atFdcwd path = .ok dir ∧
      dir.bytes = startDirectory cwd path := by
  unfold relativeDirectory startDirectory
  cases path.isRelative with
  | true => exact ⟨cwd, rfl, rfl⟩
  | false => exact ⟨.empty, rfl, rfl⟩

theorem openatPaths_eq (h : ShortPaths root cwd path) :
    ∃ opened, openatPaths root cwd atFdcwd path = .ok opened ∧ opened.bytes =
      canonical (root.bytes ++ startDirectory cwd path ++ canonical path.bytes) := by
  obtain ⟨dir, hdir, hdirBytes⟩ := directory_eq cwd path
  have hgiven : path.bytes.length + 2 ≤ maxPath := by
    have hgiven := h.given
    unfold maxPath
    omega
  obtain ⟨guestCpath, hguest, hguestBytes⟩ := canonicalizePathName_eq hgiven
  have hopened := h.opened
  rw [List.length_append, List.length_append] at hopened
  obtain ⟨opened, hopen, hopenBytes⟩ := canonicalize_short [root, dir, guestCpath] (by
    simp only [List.map_cons, List.map_nil, List.flatten_cons, List.flatten_nil, List.append_nil,
      List.length_append, hdirBytes, hguestBytes]
    omega)
  obtain ⟨guestAbs, habs, -⟩ := canonicalize_short [dir, guestCpath] (by
    simp only [List.map_cons, List.map_nil, List.flatten_cons, List.flatten_nil, List.append_nil,
      List.length_append, hdirBytes, hguestBytes]
    omega)
  refine ⟨opened, ?_, ?_⟩
  · simp only [List.foldlM_cons, List.foldlM_nil, bind_assoc, pure_bind] at hopen habs
    have hhost : openatHostPath root cwd atFdcwd path = .ok opened := by
      simp only [openatHostPath, composeHostPath, hguest, hdir, ok_bind]
      exact hopen
    simp only [openatPaths, hhost, hguest, hdir, ok_bind]
    obtain ⟨dst, hdst, habs⟩ := bind_eq_ok.mp habs
    obtain ⟨dst', hdst', habs⟩ := bind_eq_ok.mp habs
    simp only [hdst, hdst', habs, ok_bind]
    rfl
  · rw [hopenBytes]
    simp [hdirBytes, hguestBytes]

/-- A short path behind a directory and a slash. -/
theorem formatPath_short (dir path : CString)
    (h : (dir.bytes ++ slash :: path.bytes).length < 511) :
    ∃ host, (formatPath dir path >>= canonicalizePathName) = .ok host ∧
      host.bytes = canonical (dir.bytes ++ slash :: path.bytes) := by
  have hflatten : ([dir, slashString, path].map CString.bytes).flatten =
      dir.bytes ++ slash :: path.bytes := by
    simp [slashString]
  have hshort := canonicalize_short [dir, slashString, path]
  rw [hflatten] at hshort
  obtain ⟨host, hrun, hbytes⟩ := hshort h
  refine ⟨host, ?_, hbytes⟩
  simp only [List.foldlM_cons, List.foldlM_nil, bind_assoc, pure_bind] at hrun
  simp only [formatPath, bind_assoc, pure_bind]
  exact hrun

theorem chdirPath_eq (hspaces : path.bytes.head? ≠ some space) (h : ShortPaths root cwd path) :
    ∃ guestCpath, chdirPath cwd path = .ok guestCpath ∧
      guestCpath.bytes = canonical (executedPath cwd path) := by
  have hexecuted := h.executed
  unfold chdirPath executedPath at *
  rw [skipSpaces_eq hspaces]
  cases hrel : path.isRelative with
  | false =>
    have hgiven : path.bytes.length + 2 ≤ maxPath := by
      have hgiven := h.given
      unfold maxPath
      omega
    exact canonicalizePathName_eq hgiven
  | true =>
    rw [hrel, if_pos rfl] at hexecuted
    exact formatPath_short cwd path hexecuted

theorem execveHostPath_eq (hspaces : path.bytes.head? ≠ some space)
    (h : ShortPaths root cwd path) :
    ∃ loaded, execveHostPath ⟨root, cwd⟩ path = .ok loaded ∧ loaded.bytes =
      canonical (root.bytes ++ slash :: canonical (executedPath cwd path)) := by
  obtain ⟨guestCpath, hguest, hbytes⟩ := chdirPath_eq hspaces h
  rw [execveHostPath, hguest, ok_bind, ← hbytes]
  refine formatPath_short root guestCpath ?_
  rw [hbytes]
  exact h.loaded

/-! ## Their components -/

/-- The components of a working directory are plain. -/
theorem plain_of_reachable (h : chdirRuns.Reachable cwd) :
    ∀ p ∈ components cwd.bytes, p ≠ here ∧ p ≠ up := by
  cases h with
  | init h =>
    rw [show cwd = slashString from h]
    intro p hp
    cases hp
  | step hreach hstep =>
    obtain ⟨target, hhead, hbytes⟩ :=
      callChdir_absolute (isDirectory_of_reachable hreach) hstep.1 hstep.2
    rw [hbytes, components, parts_append (Or.inr (Or.inl rfl)), parts_cons_sep, parts_nil,
      List.append_nil]
    have hcomps := (canonical_absolute hhead).1
    rw [components] at hcomps
    rw [hcomps]
    exact plain_resolve

/-- The directory that a path starts from is empty or ends in a slash, and its components
are plain. -/
theorem startDirectory_spec (hcwd : chdirRuns.Reachable cwd) (path : CString) :
    (startDirectory cwd path = [] ∨ (startDirectory cwd path).getLast? = some slash) ∧
      ∀ p ∈ components (startDirectory cwd path), p ≠ here ∧ p ≠ up := by
  unfold startDirectory
  split
  next => exact ⟨Or.inr (isDirectory_of_reachable hcwd).last, plain_of_reachable hcwd⟩
  next => exact ⟨Or.inl rfl, fun p hp => by cases hp⟩

section Components

variable (hroot : root.bytes.getLast? = some slash) (hcwd : chdirRuns.Reachable cwd)

include hroot hcwd

theorem components_opened (path : CString) :
    components (canonical (root.bytes ++ startDirectory cwd path ++ canonical path.bytes)) =
      resolve (components (canonical root.bytes) ++ components (startDirectory cwd path))
        (components (canonical path.bytes)) := by
  obtain ⟨hends, hplain⟩ := startDirectory_spec hcwd path
  have hcomps : components (startDirectory cwd path ++ canonical path.bytes) =
      components (startDirectory cwd path) ++ components (canonical path.bytes) := by
    rcases hends with hnil | hlast
    · rw [hnil]
      rfl
    · exact parts_append (Or.inl hlast)
  rw [List.append_assoc, components_canonical_append hroot, hcomps, resolve_append,
    resolve_of_plain _ hplain]

theorem components_loaded (hspaces : path.bytes.head? ≠ some space) :
    components (canonical (root.bytes ++ slash :: canonical (executedPath cwd path))) =
      components (canonical root.bytes) ++
        resolve [] (components (startDirectory cwd path) ++ components path.bytes) := by
  have hexecuted : (executedPath cwd path).head? = some slash ∧
      components (executedPath cwd path) =
        components (startDirectory cwd path) ++ components path.bytes := by
    unfold executedPath startDirectory
    cases hrel : path.isRelative with
    | true =>
      refine ⟨?_, parts_append_sep _ _⟩
      rw [if_pos rfl, List.head?_append, (isDirectory_of_reachable hcwd).first]
      rfl
    | false =>
      refine ⟨?_, rfl⟩
      have hhead := path.head_skipSpaces hrel
      rw [skipSpaces_eq hspaces] at hhead
      exact hhead
  obtain ⟨hhead, hcomps⟩ := hexecuted
  have hcons : components (slash :: canonical (executedPath cwd path)) =
      components (canonical (executedPath cwd path)) := parts_cons_sep _
  rw [components_canonical_append hroot, hcons, (canonical_absolute hhead).1, hcomps,
    resolve_of_plain _ plain_resolve]

end Components

/-- `do_openat` and `call_execve` resolve a path as they should if and only if neither the
root nor the path loses the name in front, and a relative path does not climb out of its
directory, unless this is the root. -/
theorem resolvesAlike_iff (hroot : root.bytes.getLast? = some slash)
    (hcwd : chdirRuns.Reachable cwd) (hspaces : path.bytes.head? ≠ some space)
    (hshort : ShortPaths root cwd path) :
    ResolvesAlike root cwd path ↔
      ¬ DropsFirst root.bytes ∧ ¬ DropsFirst path.bytes ∧
        (path.isRelative = true →
          components cwd.bytes = [] ∨ climbs 0 (components path.bytes) = false) := by
  obtain ⟨opened, hopened, hopenedBytes⟩ := openatPaths_eq hshort
  obtain ⟨loaded, hloaded, hloadedBytes⟩ := execveHostPath_eq hspaces hshort
  have hopenedComps := components_opened hroot hcwd path
  have hloadedComps := components_loaded hroot hcwd hspaces
  rw [← hopenedBytes] at hopenedComps
  rw [← hloadedBytes] at hloadedComps
  have hplain := (startDirectory_spec hcwd path).2
  have hresolved : resolvedPath root cwd path = resolve [] (components root.bytes) ++
      resolve (components (startDirectory cwd path)) (components path.bytes) := by
    rw [resolvedPath, resolve_append, resolve_of_plain [] hplain, List.nil_append]
  have hdirectory : (components (startDirectory cwd path) = [] ∨
      climbs 0 (components path.bytes) = false) ↔ (path.isRelative = true →
        components cwd.bytes = [] ∨ climbs 0 (components path.bytes) = false) := by
    unfold startDirectory
    cases path.isRelative with
    | true => simp
    | false => simp [components]
  constructor
  · rintro ⟨opened', loaded', hopened', hloaded', hopenedSame, hloadedSame⟩
    obtain rfl : opened = opened' := Except.ok.inj (hopened.symm.trans hopened')
    obtain rfl : loaded = loaded' := Except.ok.inj (hloaded.symm.trans hloaded')
    rw [hloadedComps, resolvedPath] at hloadedSame
    have hrootSame := List.append_cancel_right hloadedSame
    rw [hopenedComps, hresolved, ← hrootSame] at hopenedSame
    obtain ⟨hkeeps, hclimbs⟩ := (resolve_canonical_iff _ _).mp hopenedSame
    exact ⟨(canonical_directory_iff hroot).mp hrootSame, hkeeps, hdirectory.mp hclimbs⟩
  · rintro ⟨hrootKeeps, hkeeps, hclimbs⟩
    have hrootSame := (canonical_directory_iff hroot).mpr hrootKeeps
    refine ⟨opened, loaded, hopened, hloaded, ?_, ?_⟩
    · rw [hopenedComps, hresolved, ← hrootSame]
      exact (resolve_canonical_iff _ _).mpr ⟨hkeeps, hdirectory.mpr hclimbs⟩
    · rw [hloadedComps, resolvedPath, hrootSame]

/-- The string `"/srv/"`. -/
def srvSlash : CString := .ofBuffer [47, 115, 114, 118, 47]

/-- The string `"/usr/"`. -/
def usrSlash : CString := .ofBuffer [47, 117, 115, 114, 47]

/-- The working directory behind `chdir("/usr")`. -/
theorem reachable_usr : chdirRuns.Reachable usrSlash := by
  have hinit : chdirRuns.Reachable slashString := .init rfl
  have hstep : chdirRuns.step slashString (.ofBuffer [47, 117, 115, 114]) usrSlash :=
    ⟨by decide, by decide +kernel⟩
  exact hinit.step hstep

/-- With the root `"/srv/"` and the working directory `"/usr/"`, the path `"bin/../sh"` is
opened and executed as `"/srv/usr/sh"`. -/
theorem resolvesAlike_usr :
    ResolvesAlike srvSlash usrSlash (.ofBuffer [98, 105, 110, 47, 46, 46, 47, 115, 104]) := by
  have hshort : ShortPaths srvSlash usrSlash
      (.ofBuffer [98, 105, 110, 47, 46, 46, 47, 115, 104]) :=
    ⟨by decide, by decide +kernel, by decide, by decide +kernel⟩
  refine (resolvesAlike_iff (by decide) reachable_usr (by decide) hshort).mpr ?_
  decide +kernel

/-- In the same place, the path `"a/b"` is opened as `"/srv/usr/b"` and executed as
`"/srv/usr/a/b"`. -/
theorem openat_drops_first_name :
    srvSlash.bytes.getLast? = some slash ∧ chdirRuns.Reachable usrSlash ∧
    ShortPaths srvSlash usrSlash (.ofBuffer [97, 47, 98]) ∧
    openatPaths srvSlash usrSlash atFdcwd (.ofBuffer [97, 47, 98]) =
      .ok (.ofBuffer [47, 115, 114, 118, 47, 117, 115, 114, 47, 98]) ∧
    execveHostPath ⟨srvSlash, usrSlash⟩ (.ofBuffer [97, 47, 98]) =
      .ok (.ofBuffer [47, 115, 114, 118, 47, 117, 115, 114, 47, 97, 47, 98]) ∧
    ¬ ResolvesAlike srvSlash usrSlash (.ofBuffer [97, 47, 98]) := by
  have hopened : openatPaths srvSlash usrSlash atFdcwd (.ofBuffer [97, 47, 98]) =
      .ok (.ofBuffer [47, 115, 114, 118, 47, 117, 115, 114, 47, 98]) := by decide +kernel
  have hloaded : execveHostPath ⟨srvSlash, usrSlash⟩ (.ofBuffer [97, 47, 98]) =
      .ok (.ofBuffer [47, 115, 114, 118, 47, 117, 115, 114, 47, 97, 47, 98]) := by decide +kernel
  refine ⟨by decide, reachable_usr, ⟨by decide, by decide +kernel, by decide, by decide +kernel⟩,
    hopened, hloaded, ?_⟩
  rintro ⟨opened, loaded, hopened', hloaded', hopenedComps, hloadedComps⟩
  rw [hopened] at hopened'
  rw [hloaded] at hloaded'
  cases hopened'
  cases hloaded'
  exact absurd (hopenedComps.trans hloadedComps.symm) (by decide)

end Hyrule
