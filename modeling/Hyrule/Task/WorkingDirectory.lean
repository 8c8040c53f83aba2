import Hyrule.Task.GuestBuffers
import Hyrule.Task.PathBuffers

/-!
# The working directory

`call_chdir` stores a canonical path with a slash behind it.  The next call joins that
with a slash and a relative path, and canonicalises again.  `call_getcwd` copies the
stored string to the guest.

`chdirLaws_of_reachable` says that this comes to the same as one call of the two paths
joined, and that a `chdir` to the string of `call_getcwd` goes nowhere.  Both rest on
that a canonical path has its components as they are: they are resolved already.
-/

namespace Hyrule

open Lib Lib.Result

variable {cwd p q : CString}

/-! ## The calls -/

/-- `call_getcwd`: what it returns, and the host memory. -/
def callGetcwd (heap : HostHeap) (regions : RegionTable) (cwd : CString) (bufAddr : Word) :
    Result (Word × HostHeap) := do
  if bufAddr = 0 then return (0, heap)
  else
    let buf ← userWorldAddress regions bufAddr
    let heap ← heap.store (← deref buf.base) buf.offset (cwd.bytes ++ [nul])
    return (BitVec.ofNat 32 (cwd.length + 1), heap)

/-- `call_chdir` of the string at an address. -/
def callChdirAt (heap : HostHeap) (regions : RegionTable) (cwd : CString) (pathAddr : Word) :
    Result CString := do
  let path ← userWorldAddress regions pathAddr
  callChdir cwd (← guestString heap path)

/-- A path, a slash and a path. -/
def joinPaths (p q : CString) : CString := p.append (slashString.append q)

/-- What is expected of `call_chdir` in a working directory. -/
structure ChdirLaws (cwd : CString) : Prop where
  /-- An absolute path and then a relative one are the two joined, if no string leaves its
  buffer. -/
  composes : ∀ p q : CString, p.bytes.head? = some slash → q.bytes.head? ≠ some slash →
    q.bytes.head? ≠ some space → (joinPaths p q).length < maxPath →
    callChdir cwd p ≠ .error .outOfBounds →
    (∀ cwd₁, callChdir cwd p = .ok cwd₁ → callChdir cwd₁ q ≠ .error .outOfBounds) →
    callChdir cwd (joinPaths p q) ≠ .error .outOfBounds →
    ∃ cwd₁ cwd₂ cwd₃, callChdir cwd p = .ok cwd₁ ∧ callChdir cwd₁ q = .ok cwd₂ ∧
      callChdir cwd (joinPaths p q) = .ok cwd₃ ∧ components cwd₂.bytes = components cwd₃.bytes
  /-- The string of `call_getcwd` is the working directory. -/
  getcwd : ∀ (heap heap' : HostHeap) (regions : RegionTable) (bufAddr rv : Word),
    callGetcwd heap regions cwd bufAddr = .ok (rv, heap') → bufAddr ≠ 0 →
    ∃ cwd', callChdirAt heap' regions cwd bufAddr = .ok cwd' ∧
      components cwd'.bytes = components cwd.bytes

/-! ## Two calls -/

theorem callChdir_returns {path : CString} (h : callChdir cwd path ≠ .error .outOfBounds) :
    ∃ cwd', callChdir cwd path = .ok cwd' := by
  rcases callChdir_cases cwd path with ⟨-, cwd', hrun, -⟩ | ⟨-, hrun⟩
  · exact ⟨cwd', hrun⟩
  · exact absurd hrun h

theorem isRelative_of_slash (h : p.bytes.head? = some slash) : p.isRelative = false := by
  obtain ⟨rest, hrest⟩ := List.head?_eq_some_iff.mp h
  have hne : slash ≠ space := by decide
  simp [CString.isRelative, CString.skipSpaces, CString.byteAt, hrest, hne]

theorem isRelative_of_name (hslash : q.bytes.head? ≠ some slash)
    (hspace : q.bytes.head? ≠ some space) : q.isRelative = true := by
  rw [CString.isRelative, skipSpaces_eq hspace, CString.byteAt]
  cases hbytes : q.bytes with
  | nil => decide
  | cons c rest =>
    rw [hbytes, List.head?_cons] at hslash
    simpa using fun heq : c = slash => hslash (by rw [heq])

/-- The components behind a `chdir` to an absolute path. -/
theorem components_chdir_absolute {cwd' : CString} (hlen : p.length < maxPath)
    (hhead : p.bytes.head? = some slash) (h : callChdir cwd p = .ok cwd') :
    cwd'.bytes.head? = some slash ∧
      components cwd'.bytes = resolve [] (components p.bytes) := by
  obtain ⟨target, hbytes, -, habsolute⟩ := callChdir_bytes hlen h
  have hne : p.bytes.head? ≠ some space := by
    rw [hhead]
    decide
  have htarget : target = p.bytes := by
    rw [habsolute (isRelative_of_slash hhead), skipSpaces_eq hne]
  rw [htarget] at hbytes
  refine ⟨(isDirectory_of_canonical hhead hbytes).first, ?_⟩
  rw [hbytes, components, parts_append (Or.inr (Or.inl rfl)), parts_cons_sep, parts_nil,
    List.append_nil]
  exact (canonical_absolute hhead).1

/-- The components behind a `chdir` to a relative path. -/
theorem components_chdir_relative {cwd' : CString} (hlen : q.length < maxPath)
    (hslash : q.bytes.head? ≠ some slash) (hspace : q.bytes.head? ≠ some space)
    (hcwd : cwd.bytes.head? = some slash) (h : callChdir cwd q = .ok cwd') :
    components cwd'.bytes = resolve [] (components cwd.bytes ++ components q.bytes) := by
  obtain ⟨target, hbytes, hrelative, -⟩ := callChdir_bytes hlen h
  have htarget : target = cwd.bytes ++ slash :: q.bytes := by
    rw [hrelative (isRelative_of_name hslash hspace), skipSpaces_eq hspace]
    simp
  have hhead : target.head? = some slash := by
    rw [htarget, List.head?_append, hcwd]
    rfl
  have hcomps : components target = components cwd.bytes ++ components q.bytes := by
    rw [htarget]
    exact parts_append_sep _ _
  rw [← hcomps, hbytes, components, parts_append (Or.inr (Or.inl rfl)), parts_cons_sep, parts_nil,
    List.append_nil]
  exact (canonical_absolute hhead).1

theorem chdir_composes (hp : p.bytes.head? = some slash) (hslash : q.bytes.head? ≠ some slash)
    (hspace : q.bytes.head? ≠ some space) (hlen : (joinPaths p q).length < maxPath)
    {cwd₁ cwd₂ cwd₃ : CString} (h₁ : callChdir cwd p = .ok cwd₁)
    (h₂ : callChdir cwd₁ q = .ok cwd₂) (h₃ : callChdir cwd (joinPaths p q) = .ok cwd₃) :
    components cwd₂.bytes = components cwd₃.bytes := by
  have hbytes : (joinPaths p q).bytes = p.bytes ++ slash :: q.bytes := rfl
  have hlens : p.length < maxPath ∧ q.length < maxPath := by
    rw [CString.length, hbytes, List.length_append, List.length_cons] at hlen
    unfold CString.length
    omega
  obtain ⟨hhead₁, hcomps₁⟩ := components_chdir_absolute hlens.1 hp h₁
  have hhead : (joinPaths p q).bytes.head? = some slash := by
    rw [hbytes, List.head?_append, hp]
    rfl
  have hcomps : components (joinPaths p q).bytes = components p.bytes ++ components q.bytes := by
    rw [hbytes]
    exact parts_append_sep _ _
  rw [components_chdir_relative hlens.2 hslash hspace hhead₁ h₂,
    (components_chdir_absolute hlen hhead h₃).2, hcomps, hcomps₁, resolve_append, resolve_append,
    resolve_of_plain [] plain_resolve, List.nil_append]

/-! ## The string of `call_getcwd` -/

theorem guestString_store {heap heap' : HostHeap} {base : HostPointer} {offset : Nat}
    (s : CString) (h : heap.store base offset (s.bytes ++ [nul]) = .ok heap') :
    guestString heap' ⟨some base, offset⟩ = .ok s := by
  unfold HostHeap.store at h
  cases hb : heap base with
  | none =>
    rw [hb] at h
    cases h
  | some b =>
    rw [hb] at h
    dsimp only at h
    split at h
    next hfits =>
      cases h
      -- The string and its zero stand in front of what follows them in the buffer.
      have hread : (List.range' offset (b.size - offset)).map (memcpy b.byte offset
          (fun i => (s.bytes ++ [nul]).getD i 0) (s.bytes ++ [nul]).length) =
          s.bytes ++ nul :: (List.range' (offset + (s.bytes ++ [nul]).length)
            (b.size - offset - (s.bytes ++ [nul]).length)).map (memcpy b.byte offset
          (fun i => (s.bytes ++ [nul]).getD i 0) (s.bytes ++ [nul]).length) := by
        have hsplit : List.range' offset (b.size - offset) =
            List.range' offset (s.bytes ++ [nul]).length ++
              List.range' (offset + (s.bytes ++ [nul]).length)
                (b.size - offset - (s.bytes ++ [nul]).length) := by
          rw [List.range'_append_1]
          congr 1
          omega
        have hstring : (List.range' offset (s.bytes ++ [nul]).length).map (memcpy b.byte offset
            (fun i => (s.bytes ++ [nul]).getD i 0) (s.bytes ++ [nul]).length) =
            s.bytes ++ [nul] := by
          refine List.ext_getElem (by simp) fun i _ hi => ?_
          rw [List.getElem_map, List.getElem_range', Nat.one_mul, memcpy_add hi,
            List.getD_eq_getElem _ _ hi]
        rw [hsplit, List.map_append, hstring, List.append_assoc, List.singleton_append]
      simp only [guestString, deref, ok_bind, Function.update_self, hread]
      rw [if_pos (by simp)]
      have hnonzero : ∀ b ∈ s.bytes, decide (b ≠ nul) = true := fun b hb => by
        simpa using fun hnul : b = nul => s.noNul (hnul ▸ hb)
      refine congrArg Except.ok ?_
      obtain ⟨bytes, noNul⟩ := s
      rw [CString.ofBuffer, CString.mk.injEq, List.takeWhile_append_of_pos hnonzero]
      simp
    next => cases h

/-- A directory is not longer when it is canonicalised and gets its slash back. -/
theorem length_canonical_directory (hcwd : cwd.IsDirectory) (hlen : cwd.length < nameSize) :
    (canonical cwd.bytes).length + 1 < nameSize := by
  obtain ⟨dir, hdir⟩ := List.getLast?_eq_some_iff.mp hcwd.last
  have hcomps : components cwd.bytes = components dir := by
    rw [hdir, components, parts_append (Or.inr (Or.inl rfl)), parts_cons_sep, parts_nil,
      List.append_nil]
    rfl
  rw [CString.length, hdir, List.length_append, List.length_singleton] at hlen
  have hname : nameSize = 128 := rfl
  rcases canonical_absolute_cases hcwd.first with hwords | ⟨-, hslash⟩
  · rw [hcomps] at hwords
    -- Without its last slash the directory has the same components.
    have hle : (canonical cwd.bytes).length ≤ dir.length := by
      cases hhead : dir.head? with
      | none =>
        rw [List.head?_eq_none_iff.mp hhead] at hwords ⊢
        rw [hwords]
        exact Nat.le_refl 0
      | some c =>
        have hfirst := hcwd.first
        rw [hdir, List.head?_append, hhead, Option.some_or] at hfirst
        rw [hfirst] at hhead
        rcases canonical_absolute_cases hhead with hdirWords | ⟨hnil, -⟩
        · rw [hwords, ← hdirWords]
          exact canonical_length dir
        · rw [hwords, hnil]
          exact Nat.zero_le _
    omega
  · rw [hslash]
    decide

/-- The working directory fits into its buffer. -/
theorem length_of_reachable (h : chdirRuns.Reachable cwd) : cwd.length < nameSize := by
  cases h with
  | init h =>
    rw [show cwd = slashString from h]
    decide
  | step _ hstep =>
    obtain ⟨cpath, -, hrun⟩ := bind_eq_ok.mp hstep.2
    obtain ⟨dst, -, hrun⟩ := bind_eq_ok.mp hrun
    obtain ⟨dst', -, hrun⟩ := bind_eq_ok.mp hrun
    obtain ⟨hlen, rfl⟩ := copyName_eq_ok.mp hrun
    exact hlen

/-- A `chdir` to the working directory returns, and goes nowhere. -/
theorem callChdir_self (h : chdirRuns.Reachable cwd) :
    ∃ cwd', callChdir cwd cwd = .ok cwd' ∧ components cwd'.bytes = components cwd.bytes := by
  have hcwd := isDirectory_of_reachable h
  have hlen := length_of_reachable h
  have hshort : cwd.bytes.length < maxPath := hlen.trans (by decide)
  have hspace : cwd.bytes.head? ≠ some space := by
    rw [hcwd.first]
    decide
  have htarget : chdirTarget cwd cwd = cwd.bytes := by
    rw [chdirTarget, isRelative_of_slash hcwd.first, skipSpaces_eq hspace]
    rfl
  have hleft : left cwd.bytes = canonical cwd.bytes := if_pos hshort
  have hfits : TargetFits cwd cwd := by
    rw [TargetFits, htarget]
    refine ⟨fun _ => hshort, fun hfull => ?_⟩
    rw [CString.length, hfull.1] at hlen
    exact absurd hlen (by decide)
  rcases callChdir_cases cwd cwd with ⟨-, cwd', hrun, -⟩ | ⟨hnot, -⟩
  · refine ⟨cwd', hrun, ?_⟩
    rw [(components_chdir_absolute hshort hcwd.first hrun).2]
    exact resolve_of_plain [] (plain_of_reachable h)
  · refine absurd ⟨hfits, ?_⟩ hnot
    rw [htarget, hleft]
    exact length_canonical_directory hcwd hlen

/-! ## The laws -/

/-- In every working directory that is reached, two calls compose and `call_getcwd` gives
the directory back. -/
theorem chdirLaws_of_reachable (h : chdirRuns.Reachable cwd) : ChdirLaws cwd where
  composes p q hp hslash hspace hlen hfirst hsecond hjoined := by
    obtain ⟨cwd₁, h₁⟩ := callChdir_returns hfirst
    obtain ⟨cwd₂, h₂⟩ := callChdir_returns (hsecond cwd₁ h₁)
    obtain ⟨cwd₃, h₃⟩ := callChdir_returns hjoined
    exact ⟨cwd₁, cwd₂, cwd₃, h₁, h₂, h₃, chdir_composes hp hslash hspace hlen h₁ h₂ h₃⟩
  getcwd heap heap' regions bufAddr rv hgetcwd hbuf := by
    rw [callGetcwd, if_neg hbuf] at hgetcwd
    obtain ⟨buf, haddress, hgetcwd⟩ := bind_eq_ok.mp hgetcwd
    obtain ⟨base, hbase, hgetcwd⟩ := bind_eq_ok.mp hgetcwd
    obtain ⟨stored, hstore, hgetcwd⟩ := bind_eq_ok.mp hgetcwd
    cases hgetcwd
    have hstring := guestString_store cwd hstore
    rw [← deref_eq_ok.mp hbase] at hstring
    obtain ⟨cwd', hrun, hcomps⟩ := callChdir_self h
    refine ⟨cwd', ?_, hcomps⟩
    rw [callChdirAt, haddress, ok_bind, hstring, ok_bind, hrun]

/-- Behind `chdir("/usr")`, the calls `chdir("/bin")` and `chdir("../lib")` come to the same
as `chdir("/bin/../lib")`. -/
theorem chdirLaws_usr :
    ∃ cwd₁ cwd₂ cwd₃, callChdir usrSlash (.ofBuffer [47, 98, 105, 110]) = .ok cwd₁ ∧
      callChdir cwd₁ (.ofBuffer [46, 46, 47, 108, 105, 98]) = .ok cwd₂ ∧
      callChdir usrSlash (joinPaths (.ofBuffer [47, 98, 105, 110])
        (.ofBuffer [46, 46, 47, 108, 105, 98])) = .ok cwd₃ ∧
      components cwd₂.bytes = components cwd₃.bytes := by
  refine (chdirLaws_of_reachable reachable_usr).composes _ _ (by decide) (by decide) (by decide)
    (by decide) (by decide +kernel) ?_ (by decide +kernel)
  intro cwd₁ h₁
  have hbin : callChdir usrSlash (.ofBuffer [47, 98, 105, 110]) =
      .ok (.ofBuffer [47, 98, 105, 110, 47]) := by decide +kernel
  rw [hbin] at h₁
  cases h₁
  decide +kernel

end Hyrule
