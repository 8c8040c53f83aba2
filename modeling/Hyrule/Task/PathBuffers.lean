import Hyrule.Fs.LongPath
import Hyrule.Task.PathResolution

/-!
# Buffers of paths

The calls that take a path join it with the working directory and with the root in
buffers of `MAX_PATH` bytes, and `call_chdir` copies what it computed to the 128 bytes of
`cwd`.  No length is checked.  `PathStep.Fits` says for every call which lengths keep it
inside its buffers: what is joined has at most 511 bytes, and if it has 511 then it has to
lose some when it is canonicalised.

`pathBuffers_inside_iff` says that a run of calls stays inside its buffers if and only if
every call of it fits.
-/

namespace Hyrule

open Lib Lib.Result

/-! ## Runs of calls -/

/-- A call that takes a path. -/
inductive PathStep where
  | chdir (path : CString)
  | host (call : PathCall) (dirfd : Word) (path : CString)
  | execve (filename : CString)

/-- The paths of a call.  `do_openat` computes more than the one for the host. -/
def PathCall.paths : PathCall → CString → CString → Word → CString → Result CString
  | .openat => openatPaths
  | .statx => statxHostPath
  | .readlinkat => readlinkatHostPath
  | .unlinkat => unlinkatHostPath

/-- The working directory behind a call. -/
def PathStep.run (root cwd : CString) : PathStep → Result CString
  | .chdir path => callChdir cwd path
  | .host call dirfd path => do
      let _ ← call.paths root cwd dirfd path
      return cwd
  | .execve filename => do
      let _ ← execveHostPath ⟨root, cwd⟩ filename
      return cwd

/-- The working directory behind calls, from the start-up on. -/
def pathRun (root : CString) (steps : List PathStep) : Result CString :=
  steps.foldlM (fun cwd step => step.run root cwd) slashString

/-! ## What fits -/

/-- A string that is canonicalised inside the buffer for the result. -/
def CanonicalFits (bytes : List Byte) : Prop := ¬ (bytes.length = 511 ∧ Unreduced bytes)

/-- A string that fits into a buffer, and is canonicalised. -/
def JoinFits (bytes : List Byte) : Prop := bytes.length < maxPath ∧ CanonicalFits bytes

/-- What `call_chdir` and `call_execve` canonicalise. -/
def chdirTarget (cwd path : CString) : List Byte :=
  if path.isRelative then cwd.bytes ++ slash :: path.skipSpaces.bytes else path.skipSpaces.bytes

/-- It fits.  A relative path is joined with the working directory in a buffer. -/
def TargetFits (cwd path : CString) : Prop :=
  (path.isRelative = true → (chdirTarget cwd path).length < maxPath) ∧
    CanonicalFits (chdirTarget cwd path)

/-- The condition on a call, on its path, the working directory and the root. -/
def PathStep.Fits (root cwd : CString) : PathStep → Prop
  | .chdir path => TargetFits cwd path ∧ (left (chdirTarget cwd path)).length + 1 < nameSize
  | .host call dirfd path => CanonicalFits path.bytes ∧
      ∀ dir, relativeDirectory call.otherDirectory cwd dirfd path = .ok dir →
        JoinFits (root.bytes ++ dir.bytes ++ left path.bytes)
  | .execve filename => TargetFits cwd filename ∧
      JoinFits (root.bytes ++ slash :: left (chdirTarget cwd filename))

/-! ## Strings in a buffer -/

theorem canonicalizePathName_inside {src : CString} (h : CanonicalFits src.bytes) :
    ∃ dst, canonicalizePathName src = .ok dst ∧ dst.bytes = left src.bytes := by
  rcases canonicalizePathName_total src with ⟨hkept, -⟩ | ⟨-, hreturns⟩
  · exact absurd hkept h
  · exact hreturns

theorem canonicalizePathName_outside {src : CString} (h : ¬ CanonicalFits src.bytes) :
    canonicalizePathName src = .error .outOfBounds := by
  rcases canonicalizePathName_total src with ⟨-, hfails⟩ | ⟨hnot, -⟩
  · exact hfails
  · exact absurd hnot h

/-- Strings are joined in a buffer and canonicalised, or a buffer overflows. -/
theorem joined_cases (strings : List CString) :
    (JoinFits (strings.map CString.bytes).flatten ∧ ∃ host, (do
        let buffer ← strings.foldlM appendString []
        canonicalizePathName (CString.ofBuffer buffer)) = .ok host ∧
        host.bytes = left (strings.map CString.bytes).flatten) ∨
      (¬ JoinFits (strings.map CString.bytes).flatten ∧ (do
        let buffer ← strings.foldlM appendString []
        canonicalizePathName (CString.ofBuffer buffer)) = .error .outOfBounds) := by
  have hbytes := CString.ofBuffer_bytes (noNul_flatten strings)
  by_cases hlen : (strings.map CString.bytes).flatten.length < maxPath
  · have hrun := appendStrings_eq strings [] hlen
    rw [List.nil_append] at hrun
    rw [hrun, ok_bind]
    by_cases hcanonical : CanonicalFits (strings.map CString.bytes).flatten
    · have hreturns := canonicalizePathName_inside (hbytes ▸ hcanonical)
      rw [hbytes] at hreturns
      exact Or.inl ⟨⟨hlen, hcanonical⟩, hreturns⟩
    · exact Or.inr ⟨fun h => hcanonical h.2,
        canonicalizePathName_outside fun h => hcanonical (hbytes ▸ h)⟩
  · refine Or.inr ⟨fun h => hlen h.1, ?_⟩
    rcases appendStrings_cases strings [] (by decide) with ⟨-, hfits⟩ | hrun
    · exact absurd hfits hlen
    · rw [hrun]
      rfl

/-- The format `"%s/%s"` and the canonical path of its result. -/
theorem formatPath_cases (dir path : CString) :
    (JoinFits (dir.bytes ++ slash :: path.bytes) ∧
      ∃ host, (formatPath dir path >>= canonicalizePathName) = .ok host ∧
        host.bytes = left (dir.bytes ++ slash :: path.bytes)) ∨
      (¬ JoinFits (dir.bytes ++ slash :: path.bytes) ∧
        (formatPath dir path >>= canonicalizePathName) = .error .outOfBounds) := by
  have hcases := joined_cases [dir, slashString, path]
  have hflatten : ([dir, slashString, path].map CString.bytes).flatten =
      dir.bytes ++ slash :: path.bytes := by
    simp [slashString]
  have hformat : (formatPath dir path >>= canonicalizePathName) = (do
      let buffer ← [dir, slashString, path].foldlM appendString []
      canonicalizePathName (CString.ofBuffer buffer)) := by
    simp only [formatPath, List.foldlM_cons, List.foldlM_nil, bind_assoc, pure_bind]
  rw [hflatten, ← hformat] at hcases
  exact hcases

/-! ## The calls -/

theorem chdirPath_cases (cwd path : CString) :
    (TargetFits cwd path ∧ ∃ cpath, chdirPath cwd path = .ok cpath ∧
      cpath.bytes = left (chdirTarget cwd path)) ∨
    (¬ TargetFits cwd path ∧ chdirPath cwd path = .error .outOfBounds) := by
  unfold TargetFits chdirPath chdirTarget
  cases path.isRelative with
  | true =>
    simp only [if_true, forall_const]
    exact formatPath_cases cwd path.skipSpaces
  | false =>
    simp only [Bool.false_eq_true, if_false, false_implies, true_and]
    by_cases hfits : CanonicalFits path.skipSpaces.bytes
    · exact Or.inl ⟨hfits, canonicalizePathName_inside hfits⟩
    · exact Or.inr ⟨hfits, canonicalizePathName_outside hfits⟩

/-- `call_chdir` returns, or a buffer overflows. -/
theorem callChdir_cases (cwd path : CString) :
    ((TargetFits cwd path ∧ (left (chdirTarget cwd path)).length + 1 < nameSize) ∧
      ∃ cwd', callChdir cwd path = .ok cwd' ∧
        cwd'.bytes = left (chdirTarget cwd path) ++ [slash]) ∨
    (¬ (TargetFits cwd path ∧ (left (chdirTarget cwd path)).length + 1 < nameSize) ∧
      callChdir cwd path = .error .outOfBounds) := by
  rcases chdirPath_cases cwd path with ⟨hfits, cpath, hrun, hbytes⟩ | ⟨hnot, hrun⟩
  · have hflatten : ([cpath, slashString].map CString.bytes).flatten =
        left (chdirTarget cwd path) ++ [slash] := by
      simp [slashString, hbytes]
    have hcall : callChdir cwd path = (do
        let dst ← [cpath, slashString].foldlM appendString []
        copyName (CString.ofBuffer dst)) := by
      simp only [callChdir, hrun, ok_bind, List.foldlM_cons, List.foldlM_nil, bind_assoc, pure_bind]
    have hsize : (left (chdirTarget cwd path) ++ [slash]).length =
        (left (chdirTarget cwd path)).length + 1 := by
      rw [List.length_append, List.length_singleton]
    have hname := CString.ofBuffer_bytes (noNul_flatten [cpath, slashString])
    rw [hflatten] at hname
    rw [hcall]
    rcases appendStrings_cases [cpath, slashString] [] (by decide) with ⟨hjoin, -⟩ | hjoin
    · rw [hjoin, ok_bind, List.nil_append, hflatten, copyName, CString.length, hname, hsize]
      split
      next hshort => exact Or.inl ⟨⟨hfits, hshort⟩, _, rfl, hname⟩
      next hlong => exact Or.inr ⟨fun h => hlong h.2, rfl⟩
    · refine Or.inr ⟨fun h => ?_, by rw [hjoin]; rfl⟩
      have hroom : ([] ++ ([cpath, slashString].map CString.bytes).flatten).length < maxPath := by
        rw [List.nil_append, hflatten, hsize]
        exact h.2.trans (by decide)
      rw [appendStrings_eq _ [] hroom] at hjoin
      cases hjoin
  · refine Or.inr ⟨fun h => hnot h.1, ?_⟩
    rw [callChdir, hrun]
    rfl

theorem callChdir_inside_iff (cwd path : CString) :
    callChdir cwd path ≠ .error .outOfBounds ↔
      TargetFits cwd path ∧ (left (chdirTarget cwd path)).length + 1 < nameSize := by
  rcases callChdir_cases cwd path with ⟨hfits, cwd', hrun, -⟩ | ⟨hnot, hrun⟩
  · rw [hrun]
    exact ⟨fun _ => hfits, fun _ h => by cases h⟩
  · rw [hrun]
    exact ⟨fun h => absurd rfl h, fun h => absurd h hnot⟩

theorem execveHostPath_inside_iff (root cwd filename : CString) :
    execveHostPath ⟨root, cwd⟩ filename ≠ .error .outOfBounds ↔
      TargetFits cwd filename ∧
        JoinFits (root.bytes ++ slash :: left (chdirTarget cwd filename)) := by
  rcases chdirPath_cases cwd filename with ⟨hfits, cpath, hrun, hbytes⟩ | ⟨hnot, hrun⟩
  · rw [execveHostPath, hrun, ok_bind, ← hbytes]
    rcases formatPath_cases root cpath with ⟨hjoin, host, hhost, -⟩ | ⟨hjoin, hhost⟩
    · rw [hhost]
      exact ⟨fun _ => ⟨hfits, hjoin⟩, fun _ h => by cases h⟩
    · rw [hhost]
      exact ⟨fun h => absurd rfl h, fun h => absurd h.2 hjoin⟩
  · rw [execveHostPath, hrun]
    exact ⟨fun h => absurd rfl h, fun h => absurd h.1 hnot⟩

section Host

variable (call : PathCall) (root cwd : CString) (dirfd : Word) (path : CString)

/-- The host path of a call: it is computed, the call gives up, or a buffer overflows. -/
theorem hostPath_cases :
    ((PathStep.host call dirfd path).Fits root cwd ∧
      ((∃ host, call.hostPath root cwd dirfd path = .ok host) ∨
        call.hostPath root cwd dirfd path = .error .assertion)) ∨
    (¬ (PathStep.host call dirfd path).Fits root cwd ∧
      call.hostPath root cwd dirfd path = .error .outOfBounds) := by
  rw [call.hostPath_eq]
  by_cases hguest : CanonicalFits path.bytes
  · obtain ⟨guestCpath, hrun, hbytes⟩ := canonicalizePathName_inside hguest
    have hdirs : (∃ dir, relativeDirectory call.otherDirectory cwd dirfd path = .ok dir) ∨
        relativeDirectory call.otherDirectory cwd dirfd path = .error .assertion := by
      rcases call.directory_cases cwd dirfd path with ⟨-, -, hdir⟩ | ⟨-, -, -, hdir⟩ | ⟨-, hdir⟩
      · exact Or.inl ⟨_, hdir⟩
      · exact Or.inr hdir
      · exact Or.inl ⟨_, hdir⟩
    rcases hdirs with ⟨dir, hdir⟩ | hdir
    · have hcompose : composeHostPath call.otherDirectory root cwd dirfd path = (do
          let buffer ← [root, dir, guestCpath].foldlM appendString []
          canonicalizePathName (CString.ofBuffer buffer)) := by
        simp only [composeHostPath, hrun, hdir, ok_bind, List.foldlM_cons, List.foldlM_nil,
          bind_assoc, pure_bind]
      have hflatten : ([root, dir, guestCpath].map CString.bytes).flatten =
          root.bytes ++ dir.bytes ++ left path.bytes := by
        simp [hbytes]
      have hcases := joined_cases [root, dir, guestCpath]
      rw [hflatten, ← hcompose] at hcases
      rcases hcases with ⟨hjoin, host, hhost, -⟩ | ⟨hjoin, hhost⟩
      · refine Or.inl ⟨⟨hguest, fun dir' hdir' => ?_⟩, Or.inl ⟨host, hhost⟩⟩
        rw [← Except.ok.inj (hdir.symm.trans hdir')]
        exact hjoin
      · exact Or.inr ⟨fun h => hjoin (h.2 dir hdir), hhost⟩
    · refine Or.inl ⟨⟨hguest, fun dir hdir' => ?_⟩, Or.inr ?_⟩
      · cases hdir.symm.trans hdir'
      · rw [composeHostPath, hrun, ok_bind, hdir]
        rfl
  · refine Or.inr ⟨fun h => hguest h.1, ?_⟩
    rw [composeHostPath, canonicalizePathName_outside hguest]
    rfl

end Host

/-- Without the first strings, a join that fits still fits. -/
theorem JoinFits.of_append {front rest : List Byte} (h : JoinFits (front ++ rest)) :
    JoinFits rest := by
  obtain ⟨hlen, hcanonical⟩ := h
  rw [List.length_append] at hlen
  refine ⟨by omega, fun hfull => ?_⟩
  have hfront : front = [] := by
    rw [← List.length_eq_zero_iff]
    have hmax : maxPath = 512 := rfl
    omega
  rw [hfront, List.nil_append] at hcanonical
  exact hcanonical hfull

/-- `do_openat` joins more strings, but these fit if the host path does. -/
theorem openatPaths_returns {root cwd path host : CString} {dirfd : Word}
    (hfits : (PathStep.host .openat dirfd path).Fits root cwd)
    (hhost : openatHostPath root cwd dirfd path = .ok host) :
    openatPaths root cwd dirfd path = .ok host := by
  obtain ⟨hguest, hjoins⟩ := hfits
  obtain ⟨guestCpath, hrun, hbytes⟩ := canonicalizePathName_inside hguest
  have hcompose := hhost
  rw [openatHostPath, composeHostPath, hrun, ok_bind] at hcompose
  obtain ⟨dir, hdir, -⟩ := bind_eq_ok.mp hcompose
  have hjoin := hjoins dir hdir
  rw [List.append_assoc] at hjoin
  have hflatten : ([dir, guestCpath].map CString.bytes).flatten = dir.bytes ++ left path.bytes := by
    simp [hbytes]
  have hcases := joined_cases [dir, guestCpath]
  rw [hflatten] at hcases
  rcases hcases with ⟨-, guestAbs, habs, -⟩ | ⟨hnot, -⟩
  · simp only [List.foldlM_cons, List.foldlM_nil, bind_assoc, pure_bind] at habs
    obtain ⟨dst, hdst, habs⟩ := bind_eq_ok.mp habs
    obtain ⟨dst', hdst', habs⟩ := bind_eq_ok.mp habs
    simp only [openatPaths, hhost, hrun, hdir, hdst, hdst', habs, ok_bind]
    rfl
  · exact absurd hjoin.of_append hnot

theorem paths_inside_iff (call : PathCall) (root cwd : CString) (dirfd : Word) (path : CString) :
    call.paths root cwd dirfd path ≠ .error .outOfBounds ↔
      (PathStep.host call dirfd path).Fits root cwd := by
  have hcases := hostPath_cases call root cwd dirfd path
  have hhost : call.hostPath root cwd dirfd path ≠ .error .outOfBounds ↔
      (PathStep.host call dirfd path).Fits root cwd := by
    rcases hcases with ⟨hfits, ⟨host, hhost⟩ | hhost⟩ | ⟨hnot, hhost⟩
    · rw [hhost]
      exact ⟨fun _ => hfits, fun _ h => by cases h⟩
    · rw [hhost]
      exact ⟨fun _ => hfits, fun _ h => by cases h⟩
    · rw [hhost]
      exact ⟨fun h => absurd rfl h, fun h => absurd h hnot⟩
  cases call with
  | statx | readlinkat | unlinkat => exact hhost
  | openat =>
    refine ⟨fun h => ?_, fun hfits hpaths => ?_⟩
    · refine hhost.mp fun hfails => h ?_
      have hfails : openatHostPath root cwd dirfd path = .error .outOfBounds := hfails
      simp only [PathCall.paths, openatPaths, hfails]
      rfl
    · rcases hcases with ⟨-, ⟨host, hreturns⟩ | hgives⟩ | ⟨hnot, -⟩
      · cases (openatPaths_returns hfits hreturns).symm.trans hpaths
      · have hgives : openatHostPath root cwd dirfd path = .error .assertion := hgives
        simp only [PathCall.paths, openatPaths, hgives] at hpaths
        cases hpaths
      · exact absurd hfits hnot

/-- A call stays inside its buffers if and only if it fits. -/
theorem PathStep.run_inside_iff (root cwd : CString) (step : PathStep) :
    step.run root cwd ≠ .error .outOfBounds ↔ step.Fits root cwd := by
  have hkeeps : ∀ x : Result CString, (do
      let _ ← x
      return cwd) ≠ .error .outOfBounds ↔ x ≠ .error .outOfBounds := by
    intro x
    cases x with
    | error e => exact Iff.rfl
    | ok host =>
      constructor
      · intro _ h
        cases h
      · intro _ h
        cases h
  cases step with
  | chdir path => exact callChdir_inside_iff cwd path
  | host call dirfd path => exact (hkeeps _).trans (paths_inside_iff call root cwd dirfd path)
  | execve filename => exact (hkeeps _).trans (execveHostPath_inside_iff root cwd filename)

/-- A run of calls stays inside its buffers if and only if every call of it fits. -/
theorem pathBuffers_inside_iff (root : CString) (steps : List PathStep) :
    pathRun root steps ≠ .error .outOfBounds ↔
      ∀ before step after cwd, steps = before ++ step :: after → pathRun root before = .ok cwd →
        step.Fits root cwd := by
  rw [pathRun, foldlM_ne_error_iff]
  constructor
  · intro h before step after cwd hsteps hbefore
    exact (step.run_inside_iff root cwd).mp (h before step after cwd hsteps hbefore)
  · intro h before step after cwd hsteps hbefore
    exact (step.run_inside_iff root cwd).mpr (h before step after cwd hsteps hbefore)

/-- The string of a slash and `n` letters. -/
def longName (n : Nat) : CString where
  bytes := slash :: List.replicate n 97
  noNul h := by
    rcases List.mem_cons.mp h with h | h
    · cases h
    · cases (List.mem_replicate.mp h).2

/-- With the root `"/srv/"`, a `chdir` to a name of 126 letters writes behind `cwd`. -/
theorem chdir_overflows_cwd :
    srvSlash.length ≤ 127 ∧
      pathRun srvSlash [.chdir (longName 126)] = .error .outOfBounds := by
  refine ⟨by decide, by decide +kernel⟩

end Hyrule
