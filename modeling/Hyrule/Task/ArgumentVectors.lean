import Hyrule.Lib.Locals
import Hyrule.Task.Execve
import Hyrule.Task.StartupStack

/-!
# The argument vectors of `execve`

`call_execve` copies the strings of the guest to two arrays on its stack,
`host_argv` and `host_envp`, and ends both with a null pointer.  `env_setup` reads the
arrays up to it and notes where it pushes the strings in two more arrays,
`arg_pointer` and `env_pointer`.  In the end `call_execve` frees the strings, again up
to the null pointers.

Elsewhere the vectors are lists of strings.  Here the code runs on the arrays, with
the bounds that each of its loops has, and with what `strdup` returned and what was
freed.  It does what the code on lists does (`execveArrays_result`).
-/

namespace Hyrule

open Lib Lib.Result

/-! ## The arrays -/

/-- The two vectors. -/
inductive ArgumentVector where
  | argv
  | envp
deriving DecidableEq, Repr

/-- The bound of the loops that read a vector, and the number of its slots. -/
def ArgumentVector.maxNr : ArgumentVector → Nat
  | .argv => maxNrArgv
  | .envp => maxNrEnvp

/-- The bound of the loop that copies a vector. -/
def ArgumentVector.copyBound : ArgumentVector → Nat
  | .argv => maxNrArgv - 1
  | .envp => maxNrEnvp

/-- The arrays: `host_argv` and `host_envp`, and `arg_pointer` and `env_pointer`. -/
inductive ExecveArray where
  | host (v : ArgumentVector)
  | pointer (v : ArgumentVector)
deriving DecidableEq, Repr

@[reducible] def ExecveArray.size : ExecveArray → Nat
  | .host v => v.maxNr
  | .pointer v => v.maxNr

/-- A `char *` is a null pointer or one that `strdup` returned, by its number. -/
@[reducible] def ExecveArray.Cell : ExecveArray → Type
  | .host _ => Option Nat
  | .pointer _ => Word

/-- The strings that `strdup` returned, and the pointers that were freed. -/
structure Duplicates where
  strings : List CString
  freed : List Nat
deriving DecidableEq

abbrev ExecveLocals := Locals ExecveArray.size ExecveArray.Cell Duplicates

abbrev ExecveM := LocalsM ExecveArray.size ExecveArray.Cell Duplicates

namespace ExecveM

def strdup (s : CString) : ExecveM Nat :=
  LocalsM.onRest fun d => (.ok d.strings.length, { d with strings := d.strings ++ [s] })

def free (p : Nat) : ExecveM Unit :=
  LocalsM.onRest fun d => (.ok (), { d with freed := d.freed ++ [p] })

/-- The string that a pointer goes to. -/
def target (p : Nat) : ExecveM CString := LocalsM.onRest fun d => (elem d.strings p, d)

/-- `host_argv[idx]` or `host_envp[idx]`. -/
def slot (v : ArgumentVector) (idx : Nat) : ExecveM (Option Nat) :=
  LocalsM.read (ExecveArray.host v) idx

/-- `arg_pointer[idx]` or `env_pointer[idx]`. -/
def address (v : ArgumentVector) (idx : Nat) : ExecveM Word :=
  LocalsM.read (ExecveArray.pointer v) idx

/-! ## The loops -/

/-- The loop that copies a vector: the index it ends at. -/
def copyLoop (v : ArgumentVector) : Nat → List CString → ExecveM Nat
  | idx, [] => return idx
  | idx, s :: strings =>
      if idx < v.copyBound then do
        let p ← strdup s
        LocalsM.write (.host v) idx (some p)
        copyLoop v (idx + 1) strings
      else return idx

/-- The loop and the null pointer behind it. -/
def copyVector (v : ArgumentVector) (strings : List CString) : ExecveM Unit := do
  let idx ← copyLoop v 0 strings
  LocalsM.write (.host v) idx none

/-- A loop over a vector, up to the null pointer or the end of the array. -/
def forStrings {τ : Type} (v : ArgumentVector) (body : Nat → τ → ExecveM τ) :
    List Nat → τ → ExecveM τ
  | [], x => return x
  | idx :: rest, x => do
      match ← slot v idx with
      | none => return x
      | some p => forStrings v body rest (← body p x)

/-- The loop body of `env_setup` that pushes a string, on the stack and the number of
strings so far. -/
def pushString (v : ArgumentVector) (base : HostPointer) (stackTop : Word) (p : Nat)
    (x : StackTop × Nat) : ExecveM (StackTop × Nat) := do
  let s ← target p
  let top ← LocalsM.lift (pushBlob base x.1 (s.bytes ++ [nul]))
  LocalsM.write (.pointer v) x.2 (stackTop - top.gap)
  return (top, x.2 + 1)

/-- The loop of `env_setup` over a vector: the stack, and the number of strings. -/
def pushVector (v : ArgumentVector) (base : HostPointer) (stackTop : Word) (top : StackTop) :
    ExecveM (StackTop × Nat) :=
  forStrings v (pushString v base stackTop) (List.range v.maxNr) (top, 0)

/-- The loop of `env_setup` that pushes the noted addresses, the last one first. -/
def pushPointers (v : ArgumentVector) (base : HostPointer) : Nat → StackTop → ExecveM StackTop
  | 0, top => return top
  | idx + 1, top => do
      let address ← address v idx
      let top ← LocalsM.lift (pushBlob base top (wordBytes address))
      pushPointers v base idx top

/-- The loop that frees the strings of a vector. -/
def freeVector (v : ArgumentVector) : ExecveM Unit :=
  forStrings v (fun p _ => free p) (List.range v.maxNr) ()

/-! ## The functions -/

/-- The copies that `call_execve` makes before it gives up the memory of the guest: the
pointer to the filename. -/
def copyArguments (args : ExecveArgs) : ExecveM Nat := do
  let filename ← strdup args.filename
  copyVector .argv args.argv
  copyVector .envp args.envp
  return filename

/-- `env_setup` on the arrays. -/
def envSetup (heap : HostHeap) (hart : Hart) (memory : VirtualMemory) :
    ExecveM (HostHeap × Hart) := do
  let stackTop := hart.registers sp
  let pointer ← LocalsM.lift (userWorldPointer memory.regions stackTop)
  let env ← pushVector .envp pointer.1 stackTop ⟨heap, pointer.2, 0⟩
  let arg ← pushVector .argv pointer.1 stackTop env.1
  let top ← LocalsM.lift (localAlign stackTop arg.1)
  let top ← LocalsM.lift ([auxBytes 0 0, auxBytes 9 hart.pc, auxBytes 25 stackTop].foldlM
    (pushBlob pointer.1) top)
  let top ← LocalsM.lift (pushBlob pointer.1 top (wordBytes 0))
  let top ← pushPointers .envp pointer.1 env.2 top
  let top ← LocalsM.lift (pushBlob pointer.1 top (wordBytes 0))
  let top ← pushPointers .argv pointer.1 arg.2 top
  let top ← LocalsM.lift (pushBlob pointer.1 top (wordBytes (BitVec.ofNat 32 arg.2)))
  return (top.heap, hart.setRegister sp (stackTop - top.gap))

/-- The end of `call_execve`. -/
def freeArguments (filename : Nat) : ExecveM Unit := do
  free filename
  freeVector .argv
  freeVector .envp

/-- `call_execve` on the arrays. -/
def callExecve (s : Forest) (t : TaskId) (args : ExecveArgs) (alloc : Allocator)
    (hostFiles : CString → Option (List Byte)) : ExecveM Forest := do
  let filename ← copyArguments args
  let owner ← LocalsM.lift (getLinkedVm s t .vm)
  let s ← LocalsM.lift (reclaimTask s owner)
  let hostCpath ← LocalsM.lift (execveHostPath (s.vm owner).dirs (← target filename))
  let s := s.setVm t { s.vm t with hart := (s.vm t).hart.reset }
  let loaded ← LocalsM.lift
    (programInit alloc s.heap (s.vm owner).hart (s.vm owner).memory (hostFiles hostCpath))
  let started ← envSetup loaded.1 loaded.2.1 loaded.2.2
  freeArguments filename
  return { s.setVm owner { s.vm owner with hart := started.2, memory := loaded.2.2 } with
    heap := started.1 }

end ExecveM

variable {l l₀ : ExecveLocals} {v : ArgumentVector}

section Strings

variable {s : CString} {p : Nat} {E : Fault → ExecveLocals → Prop}

theorem strdup_spec {Q : Nat → ExecveLocals → Prop} :
    LocalsM.Spec (fun l => Q l.rest.strings.length
      ⟨l.cells, { l.rest with strings := l.rest.strings ++ [s] }⟩) (ExecveM.strdup s) Q E := by
  refine LocalsM.Spec.pre LocalsM.Spec.onRest fun l hl => ⟨?_, ?_⟩
  · rintro p ⟨⟩
    exact hl
  · rintro e ⟨⟩

theorem free_spec {Q : Unit → ExecveLocals → Prop} :
    LocalsM.Spec (fun l => Q () ⟨l.cells, { l.rest with freed := l.rest.freed ++ [p] }⟩)
      (ExecveM.free p) Q E := by
  refine LocalsM.Spec.pre LocalsM.Spec.onRest fun l hl => ⟨?_, ?_⟩
  · rintro u ⟨⟩
    exact hl
  · rintro e ⟨⟩

theorem target_spec {Q : CString → ExecveLocals → Prop} :
    LocalsM.Spec (fun l => l.rest.strings[p]? = some s ∧ Q s l) (ExecveM.target p) Q E := by
  refine LocalsM.Spec.pre LocalsM.Spec.onRest fun l hl => ?_
  have helem : elem l.rest.strings p = .ok s := elem_eq_ok.mpr hl.1
  refine ⟨fun s' hs' => ?_, fun e he => ?_⟩
  · obtain rfl := Except.ok.inj (helem.symm.trans hs')
    exact hl.2
  · exact absurd (helem.symm.trans he) (by simp)

end Strings

/-! ## Copying -/

/-- A vector holds some pointers, and a null pointer behind them. -/
structure HasVector (l : ExecveLocals) (v : ArgumentVector) (ps : List Nat) : Prop where
  length_lt : ps.length < v.maxNr
  slots : ∀ i : Fin v.maxNr, i.val ≤ ps.length → l.cells (.host v) i = ps[i.val]?

/-- A vector has a null pointer, and none before it. -/
def NullTerminated (l : ExecveLocals) (v : ArgumentVector) : Prop :=
  ∃ n : Fin v.maxNr, l.cells (.host v) n = none ∧ ∀ i, i < n → l.cells (.host v) i ≠ none

/-- Some strings have been copied to the first slots of a vector. -/
structure Copying (l₀ : ExecveLocals) (v : ArgumentVector) (copied : List CString)
    (l : ExecveLocals) : Prop where
  rest : l.rest = { l₀.rest with strings := l₀.rest.strings ++ copied }
  others : ∀ a, a ≠ .host v → l.cells a = l₀.cells a
  slots : ∀ i : Fin v.maxNr, i.val < copied.length →
    l.cells (.host v) i = some (l₀.rest.strings.length + i.val)

theorem HasVector.nullTerminated {ps : List Nat} (h : HasVector l v ps) : NullTerminated l v := by
  refine ⟨⟨ps.length, h.length_lt⟩, ?_, fun i hi => ?_⟩
  · rw [h.slots _ le_rfl]
    exact List.getElem?_eq_none le_rfl
  · have hlt : i.val < ps.length := hi
    rw [h.slots i hlt.le, List.getElem?_eq_getElem hlt]
    exact Option.some_ne_none _

theorem HasVector.congr {ps : List Nat} (h : HasVector l₀ v ps)
    (hcells : l.cells (.host v) = l₀.cells (.host v)) : HasVector l v ps :=
  ⟨h.length_lt, fun i hi => (congrFun hcells i).trans (h.slots i hi)⟩

theorem copyBound_le (v : ArgumentVector) : v.copyBound ≤ v.maxNr := by
  cases v with
  | argv => exact Nat.sub_le _ _
  | envp => exact Nat.le_refl _

theorem Copying.start (v : ArgumentVector) : Copying l v [] l :=
  ⟨by simp, fun _ _ => rfl, fun _ hi => absurd hi (Nat.not_lt_zero _)⟩

theorem Copying.step {copied : List CString} (h : Copying l₀ v copied l) (s : CString)
    (hi : copied.length < v.maxNr) :
    Copying l₀ v (copied ++ [s])
      (Locals.set ⟨l.cells, { l.rest with strings := l.rest.strings ++ [s] }⟩ (.host v)
        ⟨copied.length, hi⟩ (some l.rest.strings.length)) := by
  refine ⟨?_, ?_, ?_⟩
  · simp [h.rest]
  · intro a ha
    rw [Locals.set_cells_of_ne ha]
    exact h.others a ha
  · intro i hlt
    rw [List.length_append, List.length_singleton] at hlt
    rw [Locals.set_cells_self]
    split
    next heq => simp [heq, h.rest]
    next hne =>
      have hval : i.val ≠ copied.length := fun h => hne (Fin.ext h)
      exact h.slots i (by omega)

theorem copyLoop_spec (l₀ : ExecveLocals) (copied strings : List CString)
    (hcopied : copied.length ≤ v.copyBound) :
    LocalsM.Spec (Copying l₀ v copied) (ExecveM.copyLoop v copied.length strings)
      (fun idx l => idx = (copied ++ strings.take (v.copyBound - copied.length)).length ∧
        Copying l₀ v (copied ++ strings.take (v.copyBound - copied.length)) l)
      fun _ _ => False := by
  induction strings generalizing copied with
  | nil =>
    refine LocalsM.Spec.pre LocalsM.Spec.pure fun l hl => ?_
    simpa using hl
  | cons s strings ih =>
    rw [ExecveM.copyLoop]
    split
    next hlt =>
      have hi : copied.length < v.maxNr := hlt.trans_le (copyBound_le v)
      have hlength : (copied ++ [s]).length = copied.length + 1 := by simp
      have htake : copied ++ (s :: strings).take (v.copyBound - copied.length) =
          copied ++ [s] ++ strings.take (v.copyBound - (copied ++ [s]).length) := by
        rw [hlength, Nat.sub_succ', List.take_cons (by omega), List.append_assoc]
        rfl
      have hnext := ih (copied ++ [s]) (hlength.trans_le hlt)
      rw [hlength] at hnext
      rw [htake, hlength]
      refine LocalsM.Spec.pre (LocalsM.Spec.bind strdup_spec fun p =>
        LocalsM.Spec.bind (LocalsM.Spec.write (ExecveArray.host v) hi) fun _ => hnext)
        fun l hl => ?_
      exact hl.step s hi
    next hge =>
      have hfull : v.copyBound - copied.length = 0 := by omega
      refine LocalsM.Spec.pre LocalsM.Spec.pure fun l hl => ?_
      rw [hfull]
      simpa using hl

/-- Some strings have been copied to a vector. -/
structure Copied (l₀ : ExecveLocals) (v : ArgumentVector) (copied : List CString)
    (l : ExecveLocals) : Prop where
  rest : l.rest = { l₀.rest with strings := l₀.rest.strings ++ copied }
  others : ∀ a, a ≠ .host v → l.cells a = l₀.cells a
  vector : HasVector l v (List.range' l₀.rest.strings.length copied.length)

theorem Copying.close {copied : List CString} (h : Copying l₀ v copied l)
    (hi : copied.length < v.maxNr) :
    Copied l₀ v copied (l.set (.host v) ⟨copied.length, hi⟩ none) := by
  refine ⟨h.rest, ?_, by rwa [List.length_range'], ?_⟩
  · intro a ha
    rw [Locals.set_cells_of_ne ha]
    exact h.others a ha
  · intro i hle
    rw [List.length_range'] at hle
    rw [Locals.set_cells_self]
    split
    next heq => simp [heq]
    next hne =>
      have hval : i.val ≠ copied.length := fun h => hne (Fin.ext h)
      have hlt : i.val < copied.length := by omega
      rw [h.slots i hlt, List.getElem?_range' hlt, Nat.one_mul]

theorem copyVector_spec (l₀ : ExecveLocals) {strings : List CString}
    (hfits : (strings.take v.copyBound).length < v.maxNr) :
    LocalsM.Spec (fun l => l = l₀) (ExecveM.copyVector v strings)
      (fun _ => Copied l₀ v (strings.take v.copyBound)) fun _ _ => False := by
  have hloop := copyLoop_spec l₀ [] strings (Nat.zero_le v.copyBound)
  rw [List.length_nil, Nat.sub_zero, List.nil_append] at hloop
  refine LocalsM.Spec.pre (LocalsM.Spec.bind hloop fun idx => LocalsM.Spec.of_imp ?_) ?_
  · rintro rfl
    exact LocalsM.Spec.pre (LocalsM.Spec.write (ExecveArray.host v) hfits) fun l hl =>
      hl.close hfits
  · rintro l rfl
    exact .start v

/-- All strings of a call have been copied. -/
structure ArgumentsCopied (args : ExecveArgs) (l : ExecveLocals) : Prop where
  rest : l.rest = ⟨args.filename :: (args.argv.take (maxNrArgv - 1) ++ args.envp), []⟩
  argv : HasVector l .argv (List.range' 1 (args.argv.take (maxNrArgv - 1)).length)
  envp : HasVector l .envp
    (List.range' (1 + (args.argv.take (maxNrArgv - 1)).length) args.envp.length)

theorem ArgumentsCopied.nullTerminated {args : ExecveArgs} (h : ArgumentsCopied args l₀)
    (hcells : ∀ v, l.cells (.host v) = l₀.cells (.host v)) (v : ArgumentVector) :
    NullTerminated l v := by
  cases v with
  | argv => exact (h.argv.congr (hcells .argv)).nullTerminated
  | envp => exact (h.envp.congr (hcells .envp)).nullTerminated

/-- The second copy leaves the first vector. -/
theorem ArgumentsCopied.of_copied {args : ExecveArgs} {l₁ l₂ : ExecveLocals}
    (hl₁ : l₁.rest = ⟨[args.filename], []⟩)
    (hargv : Copied l₁ .argv (args.argv.take (maxNrArgv - 1)) l₂)
    (henvp : Copied l₂ .envp args.envp l) : ArgumentsCopied args l := by
  have hstrings : l₂.rest.strings = args.filename :: args.argv.take (maxNrArgv - 1) := by
    rw [hargv.rest, hl₁]
    rfl
  have hcells : l.cells (.host .argv) = l₂.cells (.host .argv) := henvp.others _ (by simp)
  have hargvVector := hargv.vector
  have henvVector := henvp.vector
  rw [hl₁] at hargvVector
  rw [hstrings, List.length_cons, Nat.add_comm] at henvVector
  refine ⟨?_, ⟨hargvVector.length_lt, ?_⟩, henvVector⟩
  · rw [henvp.rest, hargv.rest, hl₁]
    simp
  · intro i hi
    rw [hcells]
    exact hargvVector.slots i hi

theorem copyArguments_spec {args : ExecveArgs} (henvp : args.envp.length < maxNrEnvp) :
    LocalsM.Spec (fun l => l.rest = ⟨[], []⟩) (ExecveM.copyArguments args)
      (fun filename l => filename = 0 ∧ ArgumentsCopied args l) fun _ _ => False := by
  have hargvTake : (args.argv.take (maxNrArgv - 1)).length < maxNrArgv := by
    rw [List.length_take]
    exact (Nat.min_le_left _ _).trans_lt (by decide)
  have henvpTake : args.envp.take ArgumentVector.envp.copyBound = args.envp :=
    List.take_of_length_le henvp.le
  have henvpFits : (args.envp.take ArgumentVector.envp.copyBound).length <
      ArgumentVector.envp.maxNr := by
    rw [henvpTake]
    exact henvp
  refine LocalsM.Spec.bind (Q := fun filename l => filename = 0 ∧ l.rest = ⟨[args.filename], []⟩)
    ?_ fun filename => LocalsM.Spec.of_imp ?_
  · refine LocalsM.Spec.pre strdup_spec fun l hl => ?_
    simp [hl]
  · rintro rfl
    refine LocalsM.Spec.of_forall fun l₁ hl₁ => ?_
    refine LocalsM.Spec.bind (copyVector_spec l₁ hargvTake) fun _ => ?_
    refine LocalsM.Spec.of_forall fun l₂ hl₂ => ?_
    refine LocalsM.Spec.bind (copyVector_spec l₂ henvpFits) fun _ => ?_
    refine LocalsM.Spec.pre LocalsM.Spec.pure fun l hl => ?_
    rw [henvpTake] at hl
    exact ⟨rfl, .of_copied hl₁ hl₂ hl⟩

/-! ## Reading a vector -/

/-- The loop over a vector that holds some pointers runs once for each of them. -/
theorem forStrings_spec {τ : Type} {ps : List Nat} {body : Nat → τ → ExecveM τ}
    {J : Nat → τ → ExecveLocals → Prop} {E : Fault → ExecveLocals → Prop}
    (hvector : ∀ k x l, J k x l → HasVector l v ps)
    (hbody : ∀ k p x, ps[k]? = some p → LocalsM.Spec (J k x) (body p x) (J (k + 1)) E)
    (n : Nat) {k : Nat} (hn : k + n = v.maxNr) (hk : k ≤ ps.length) (x : τ) :
    LocalsM.Spec (J k x) (ExecveM.forStrings v body (List.range' k n) x) (J ps.length) E := by
  induction n generalizing k x with
  | zero =>
    refine LocalsM.Spec.of_forall fun l hl => ?_
    have hlt := (hvector k x l hl).length_lt
    omega
  | succ n ih =>
    have hi : k < v.maxNr := by omega
    rw [List.range'_succ, ExecveM.forStrings]
    refine LocalsM.Spec.bind (Q := fun p l => p = ps[k]? ∧ J k x l) ?_
      fun p => LocalsM.Spec.of_imp ?_
    · refine LocalsM.Spec.pre (LocalsM.Spec.read (ExecveArray.host v) hi) fun l hl => ?_
      exact ⟨(hvector k x l hl).slots ⟨k, hi⟩ hk, hl⟩
    · intro hp
      cases p with
      | none =>
        have hend : k = ps.length := by
          have hge := List.getElem?_eq_none_iff.mp hp.symm
          omega
        rw [hend]
        exact LocalsM.Spec.pure
      | some p =>
        have hlt : k < ps.length := (List.getElem?_eq_some_iff.mp hp.symm).1
        exact LocalsM.Spec.bind (hbody k p x hp.symm) fun x' => ih (by omega) hlt x'

/-- The loop over a whole vector. -/
theorem forVector_spec {τ : Type} {ps : List Nat} {body : Nat → τ → ExecveM τ}
    {J : Nat → τ → ExecveLocals → Prop} {E : Fault → ExecveLocals → Prop}
    (hvector : ∀ k x l, J k x l → HasVector l v ps)
    (hbody : ∀ k p x, ps[k]? = some p → LocalsM.Spec (J k x) (body p x) (J (k + 1)) E) (x : τ) :
    LocalsM.Spec (J 0 x) (ExecveM.forStrings v body (List.range v.maxNr) x) (J ps.length) E := by
  rw [List.range_eq_range']
  exact forStrings_spec hvector hbody _ (Nat.zero_add _) (Nat.zero_le _) x

theorem freeVector_spec {ps : List Nat} (l₀ : ExecveLocals) (h : HasVector l₀ v ps) :
    LocalsM.Spec (fun l => l = l₀) (ExecveM.freeVector v)
      (fun _ l => l = ⟨l₀.cells, { l₀.rest with freed := l₀.rest.freed ++ ps }⟩)
      fun _ _ => False := by
  have hloop : LocalsM.Spec
      (fun l => l = ⟨l₀.cells, { l₀.rest with freed := l₀.rest.freed ++ ps.take 0 }⟩)
      (ExecveM.freeVector v)
      (fun _ l => l = ⟨l₀.cells, { l₀.rest with freed := l₀.rest.freed ++ ps.take ps.length }⟩)
      fun _ _ => False := by
    refine forVector_spec (J := fun k _ l => l = ⟨l₀.cells,
      { l₀.rest with freed := l₀.rest.freed ++ ps.take k }⟩) ?_ ?_ ()
    · rintro k x l rfl
      exact h.congr rfl
    · intro k p x hp
      refine LocalsM.Spec.pre free_spec fun l hl => ?_
      rw [hl, List.take_add_one, hp, List.append_assoc]
      rfl
  refine LocalsM.Spec.mono hloop ?_ ?_ fun _ _ h => h
  · rintro l rfl
    simp
  · rintro u l rfl
    rw [List.take_length]

theorem range_eq_three (n m : Nat) :
    [0] ++ List.range' 1 n ++ List.range' (1 + n) m = List.range (n + m + 1) := by
  have hzero : [0] ++ List.range' 1 n = List.range' 0 (1 + n) := by
    rw [Nat.add_comm, List.range'_succ]
    rfl
  have hjoin := List.range'_append_1 (s := 0) (m := 1 + n) (n := m)
  rw [Nat.zero_add] at hjoin
  rw [hzero, hjoin, List.range_eq_range']
  congr 1
  omega

/-- The end of `call_execve` frees every string that was copied, in the order of the
copies. -/
theorem freeArguments_spec {args : ExecveArgs} :
    LocalsM.Spec (ArgumentsCopied args) (ExecveM.freeArguments 0)
      (fun _ l => (∀ v, NullTerminated l v) ∧
        l.rest.freed = List.range l.rest.strings.length) fun _ _ => False := by
  refine LocalsM.Spec.of_forall fun l₀ h => ?_
  refine LocalsM.Spec.bind (Q := fun _ l => l = ⟨l₀.cells, { l₀.rest with freed := [0] }⟩) ?_
    fun _ => ?_
  · refine LocalsM.Spec.pre free_spec fun l hl => ?_
    rw [hl, h.rest]
    rfl
  · refine LocalsM.Spec.bind (freeVector_spec _ (h.argv.congr rfl)) fun _ => ?_
    refine LocalsM.Spec.of_forall fun l₂ hl₂ => ?_
    refine LocalsM.Spec.post (freeVector_spec l₂ (h.envp.congr (by rw [hl₂]))) ?_
    rintro u l rfl
    refine ⟨h.nullTerminated fun v => by rw [hl₂], ?_⟩
    simp only [hl₂, h.rest, List.length_cons, List.length_append]
    exact range_eq_three _ _

/-! ## Pushing a vector -/

/-- The host arrays and the strings are left alone. -/
structure SameHost (l₀ l : ExecveLocals) : Prop where
  cells : ∀ v, l.cells (.host v) = l₀.cells (.host v)
  rest : l.rest = l₀.rest

/-- Pointers of a vector, with the strings they go to. -/
structure PointsTo (l : ExecveLocals) (v : ArgumentVector) (strings : List CString)
    (ps : List Nat) : Prop where
  vector : HasVector l v ps
  targets : ps.map (fun p => l.rest.strings[p]?) = strings.map some

/-- The first addresses of a table. -/
def HasAddresses (l : ExecveLocals) (v : ArgumentVector) (addresses : List Word) : Prop :=
  ∀ i : Fin v.maxNr, i.val < addresses.length →
    addresses[i.val]? = some (l.cells (.pointer v) i)

/-- What the loop over a vector has done after some strings. -/
structure Pushing (l₀ : ExecveLocals) (v : ArgumentVector) (base : HostPointer) (stackTop : Word)
    (top₀ : StackTop) (pushed : List CString) (x : StackTop × Nat) (l : ExecveLocals) : Prop where
  same : SameHost l₀ l
  others : ∀ w, w ≠ v → l.cells (.pointer w) = l₀.cells (.pointer w)
  number : x.2 = pushed.length
  stack : (pushed.map CString.terminated).foldlM (pushBlob base) top₀ = .ok x.1
  addresses : HasAddresses l v (stringPointers (stackTop - top₀.gap) pushed)

theorem SameHost.refl (l : ExecveLocals) : SameHost l l := ⟨fun _ => rfl, rfl⟩

theorem SameHost.trans {l' : ExecveLocals} (h : SameHost l₀ l) (h' : SameHost l l') :
    SameHost l₀ l' :=
  ⟨fun v => (h'.cells v).trans (h.cells v), h'.rest.trans h.rest⟩

theorem stringPointers_concat (a : Word) (strings : List CString) (s : CString) :
    stringPointers a (strings ++ [s]) =
      stringPointers a strings ++ [a - BitVec.ofNat 32 (stringsSize (strings ++ [s]))] := by
  have hsize : BitVec.ofNat 32 (stringsSize (strings ++ [s])) =
      BitVec.ofNat 32 (stringsSize strings) + BitVec.ofNat 32 s.terminated.length := by
    rw [stringsSize_append, BitVec.ofNat_add, length_terminated]
    rfl
  rw [hsize, sub_add_eq_sub_sub, stringPointers, stringPlaces_append, List.map_append]
  rfl

theorem Pushing.step {base : HostPointer} {stackTop : Word} {top₀ top : StackTop}
    {pushed : List CString} {s : CString} {x : StackTop × Nat}
    (h : Pushing l₀ v base stackTop top₀ pushed x l)
    (hpush : pushBlob base x.1 s.terminated = .ok top) (hi : x.2 < v.maxNr) :
    Pushing l₀ v base stackTop top₀ (pushed ++ [s]) (top, x.2 + 1)
      (l.set (.pointer v) ⟨x.2, hi⟩ (stackTop - top.gap)) := by
  have hstack : ((pushed ++ [s]).map CString.terminated).foldlM (pushBlob base) top₀ =
      .ok top := by
    rw [List.map_append, List.foldlM_append, h.stack, ok_bind]
    exact bind_eq_ok.mpr ⟨top, hpush, rfl⟩
  have hplace : stackTop - top.gap =
      stackTop - top₀.gap - BitVec.ofNat 32 (stringsSize (pushed ++ [s])) := by
    rw [pushBlobs_gap hstack, length_stringBlobs, sub_add_eq_sub_sub]
  refine ⟨⟨fun w => ?_, h.same.rest⟩, fun w hw => ?_, ?_, hstack, fun i hlt => ?_⟩
  · rw [Locals.set_cells_of_ne (by simp)]
    exact h.same.cells w
  · rw [Locals.set_cells_of_ne (by simpa using hw)]
    exact h.others w hw
  · rw [List.length_append, List.length_singleton, h.number]
  · rw [length_stringPointers, List.length_append, List.length_singleton] at hlt
    rw [stringPointers_concat, Locals.set_cells_self]
    split
    next heq =>
      rw [heq, hplace, List.getElem?_append_right]
      · simp [length_stringPointers, h.number]
      · rw [length_stringPointers]
        exact h.number.symm.le
    next hne =>
      have hval : i.val ≠ pushed.length := fun hval => hne (Fin.ext (hval.trans h.number.symm))
      have hbefore : i.val < (stringPointers (stackTop - top₀.gap) pushed).length := by
        rw [length_stringPointers]
        omega
      rw [List.getElem?_append_left hbefore]
      exact h.addresses i hbefore

theorem PointsTo.target {strings : List CString} {ps : List Nat} (h : PointsTo l v strings ps)
    {k p : Nat} (hp : ps[k]? = some p) :
    ∃ s, strings[k]? = some s ∧ l.rest.strings[p]? = some s := by
  have hk := congrArg (fun xs => xs[k]?) h.targets
  simp only [List.getElem?_map, hp, Option.map_some] at hk
  cases hs : strings[k]? with
  | none =>
    rw [hs] at hk
    cases hk
  | some s =>
    rw [hs] at hk
    exact ⟨s, rfl, Option.some.inj hk⟩

theorem PointsTo.length_eq {strings : List CString} {ps : List Nat}
    (h : PointsTo l v strings ps) : ps.length = strings.length := by
  simpa using congrArg List.length h.targets

theorem PointsTo.congr {strings : List CString} {ps : List Nat} (h : PointsTo l₀ v strings ps)
    (hsame : SameHost l₀ l) : PointsTo l v strings ps :=
  ⟨h.vector.congr (hsame.cells v), by rw [hsame.rest]; exact h.targets⟩

section PushVector

variable {base : HostPointer} {stackTop : Word} {strings : List CString} {ps : List Nat}
  (l₀ : ExecveLocals) (top₀ : StackTop)

theorem pushString_spec (h : PointsTo l₀ v strings ps) {k p : Nat} (x : StackTop × Nat)
    (hp : ps[k]? = some p) :
    LocalsM.Spec (Pushing l₀ v base stackTop top₀ (strings.take k) x)
      (ExecveM.pushString v base stackTop p x)
      (Pushing l₀ v base stackTop top₀ (strings.take (k + 1)))
      fun e l => (strings.map CString.terminated).foldlM (pushBlob base) top₀ = .error e ∧
        SameHost l₀ l := by
  refine LocalsM.Spec.of_forall fun l hl => ?_
  obtain ⟨s, hs, htarget⟩ := h.target hp
  have hk : k < strings.length := (List.getElem?_eq_some_iff.mp hs).1
  have hnext : strings.take (k + 1) = strings.take k ++ [s] := by
    rw [List.take_add_one, hs]
    rfl
  have hi : x.2 < v.maxNr := by
    have hlt := h.length_eq ▸ h.vector.length_lt
    rw [hl.number, List.length_take_of_le hk.le]
    exact hk.trans hlt
  refine LocalsM.Spec.pre (LocalsM.Spec.bind (target_spec (s := s)) fun s =>
    LocalsM.Spec.bind LocalsM.Spec.lift fun top =>
      LocalsM.Spec.bind (LocalsM.Spec.write (ExecveArray.pointer v) hi) fun _ =>
        LocalsM.Spec.pure) ?_
  rintro l' rfl
  refine ⟨by rw [hl.same.rest]; exact htarget, fun top hpush => ?_, fun e hpush => ⟨?_, hl.same⟩⟩
  · rw [hnext]
    exact hl.step hpush hi
  · have hsplit : strings.map CString.terminated = (strings.take k).map CString.terminated ++
        s.terminated :: (strings.drop (k + 1)).map CString.terminated := by
      rw [← List.map_cons, ← List.map_append, ← (List.getElem?_eq_some_iff.mp hs).2,
        ← List.drop_eq_getElem_cons hk, List.take_append_drop]
    rw [hsplit, List.foldlM_append, hl.stack, ok_bind, List.foldlM_cons]
    exact bind_eq_error.mpr (Or.inl hpush)

/-- The loop of `env_setup` over a vector pushes its strings. -/
theorem pushVector_refines (h : PointsTo l₀ v strings ps) :
    LocalsM.Refines (fun l => l = l₀) (ExecveM.pushVector v base stackTop top₀)
      ((strings.map CString.terminated).foldlM (pushBlob base) top₀ >>= fun top =>
        .ok (top, strings.length))
      (Pushing l₀ v base stackTop top₀ strings) (SameHost l₀) := by
  refine LocalsM.Spec.mono
    (forVector_spec (J := fun k => Pushing l₀ v base stackTop top₀ (strings.take k))
      (fun k x l hl => h.vector.congr (hl.same.cells v))
      (fun k p x hp => pushString_spec l₀ top₀ h x hp) (top₀, 0)) ?_ ?_ ?_
  · rintro l rfl
    exact ⟨.refl _, fun _ _ => rfl, rfl, rfl, fun i hi => absurd hi (Nat.not_lt_zero _)⟩
  · intro x l hl
    rw [h.length_eq, List.take_length] at hl
    refine ⟨?_, hl⟩
    rw [hl.stack, ok_bind, ← hl.number]
  · rintro e l ⟨he, hl⟩
    exact ⟨by rw [he]; rfl, hl⟩

end PushVector

/-- The loop that pushes the noted addresses. -/
theorem pushPointers_refines (base : HostPointer) {addresses : List Word} (l₀ : ExecveLocals)
    (haddresses : HasAddresses l₀ v addresses) (hsize : addresses.length ≤ v.maxNr) (n : Nat)
    (hn : n ≤ addresses.length) (top : StackTop) :
    LocalsM.Refines (fun l => l = l₀) (ExecveM.pushPointers v base n top)
      (((addresses.take n).reverse.map wordBytes).foldlM (pushBlob base) top)
      (fun _ l => l = l₀) (SameHost l₀) := by
  induction n generalizing top with
  | zero =>
    exact LocalsM.Refines.pure fun _ h => h
  | succ n ih =>
    have hi : n < v.maxNr := by omega
    have hcell := haddresses ⟨n, hi⟩ hn
    have htake : (addresses.take (n + 1)).reverse =
        l₀.cells (.pointer v) ⟨n, hi⟩ :: (addresses.take n).reverse := by
      rw [List.take_add_one, hcell, List.reverse_append]
      rfl
    rw [htake, List.map_cons, List.foldlM_cons]
    refine LocalsM.Spec.bind (Q := fun w l => w = l₀.cells (.pointer v) ⟨n, hi⟩ ∧ l = l₀) ?_
      fun w => LocalsM.Spec.of_imp ?_
    · refine LocalsM.Spec.pre (LocalsM.Spec.read (ExecveArray.pointer v) hi) ?_
      rintro l rfl
      exact ⟨rfl, rfl⟩
    · rintro rfl
      refine LocalsM.Refines.bind (LocalsM.Refines.lift ?_) fun top _ => ih (by omega) top
      rintro l rfl
      exact .refl _

/-- The loop over all noted addresses. -/
theorem pushAddresses_refines (base : HostPointer) {addresses : List Word} (l₀ : ExecveLocals)
    (haddresses : HasAddresses l₀ v addresses) (hsize : addresses.length ≤ v.maxNr) {n : Nat}
    (hn : n = addresses.length) (top : StackTop) :
    LocalsM.Refines (fun l => l = l₀) (ExecveM.pushPointers v base n top)
      ((addresses.reverse.map wordBytes).foldlM (pushBlob base) top) (fun _ l => l = l₀)
      (SameHost l₀) := by
  have hpush := pushPointers_refines base l₀ haddresses hsize n hn.le top
  rwa [hn, List.take_length, ← hn] at hpush

/-! ## `env_setup` -/

section EnvSetup

variable {heap : HostHeap} {hart : Hart} {memory : VirtualMemory} {argv envp : List CString}

/-- `env_setup` on lists, blob by blob. -/
theorem envSetup_blobs (hargv : argv.length ≤ maxNrArgv) (henvp : envp.length ≤ maxNrEnvp) :
    envSetup heap hart memory argv envp = (do
      let pointer ← userWorldPointer memory.regions (hart.registers sp)
      let env ← (envp.map CString.terminated).foldlM (pushBlob pointer.1) ⟨heap, pointer.2, 0⟩ >>=
        fun top => .ok (top, envp.length)
      let arg ← (argv.map CString.terminated).foldlM (pushBlob pointer.1) env.1 >>=
        fun top => .ok (top, argv.length)
      let top ← localAlign (hart.registers sp) arg.1
      let top ← [auxBytes 0 0, auxBytes 9 hart.pc, auxBytes 25 (hart.registers sp)].foldlM
        (pushBlob pointer.1) top
      let top ← pushBlob pointer.1 top (wordBytes 0)
      let top ← ((stringPointers (hart.registers sp - 0) envp).reverse.map wordBytes).foldlM
        (pushBlob pointer.1) top
      let top ← pushBlob pointer.1 top (wordBytes 0)
      let top ← ((stringPointers (hart.registers sp - env.1.gap) argv).reverse.map
        wordBytes).foldlM (pushBlob pointer.1) top
      let top ← pushBlob pointer.1 top (wordBytes (BitVec.ofNat 32 argv.length))
      return (top.heap, hart.setRegister sp (hart.registers sp - top.gap))) := by
  simp only [envSetup, List.take_of_length_le hargv, List.take_of_length_le henvp, pushStrings_eq,
    tableBlobs, List.foldlM_append, List.map_cons, List.foldlM_cons, List.foldlM_nil, bind_assoc,
    ok_bind, length_stringPointers, pure_bind]

/-- `env_setup` on the arrays does what it does on lists. -/
theorem envSetup_refines {argPs envPs : List Nat} (l₀ : ExecveLocals)
    (harg : PointsTo l₀ .argv argv argPs) (henv : PointsTo l₀ .envp envp envPs) :
    LocalsM.Refines (fun l => l = l₀) (ExecveM.envSetup heap hart memory)
      (envSetup heap hart memory argv envp) (fun _ => SameHost l₀) (SameHost l₀) := by
  have hargv : argv.length ≤ maxNrArgv := (harg.length_eq ▸ harg.vector.length_lt).le
  have henvp : envp.length ≤ maxNrEnvp := (henv.length_eq ▸ henv.vector.length_lt).le
  have hsame : ∀ l, l = l₀ → SameHost l₀ l := by
    rintro l rfl
    exact .refl _
  rw [envSetup_blobs hargv henvp]
  refine LocalsM.Refines.bind (LocalsM.Refines.lift hsame) fun pointer _ => ?_
  refine LocalsM.Refines.bind (pushVector_refines l₀ _ henv) fun env _ => ?_
  refine LocalsM.Refines.of_forall fun l₁ hl₁ => ?_
  refine LocalsM.Refines.bind (.error (pushVector_refines l₁ env.1 (harg.congr hl₁.same))
    fun _ h => hl₁.same.trans h) fun arg _ => ?_
  refine LocalsM.Refines.of_forall fun l₂ hl₂ => ?_
  have hsame₂ : SameHost l₀ l₂ := hl₁.same.trans hl₂.same
  have hlift : ∀ l, l = l₂ → SameHost l₀ l := by
    rintro l rfl
    exact hsame₂
  have henvAddresses : HasAddresses l₂ .envp (stringPointers (hart.registers sp - 0) envp) := by
    intro i hi
    rw [hl₂.others .envp (by simp)]
    exact hl₁.addresses i hi
  refine LocalsM.Refines.bind (LocalsM.Refines.lift hlift) fun top₁ _ => ?_
  refine LocalsM.Refines.bind (LocalsM.Refines.lift hlift) fun top₂ _ => ?_
  refine LocalsM.Refines.bind (LocalsM.Refines.lift hlift) fun top₃ _ => ?_
  refine LocalsM.Refines.bind (.error (pushAddresses_refines _ _ henvAddresses ?_ ?_ _)
    fun _ h => hsame₂.trans h) fun top₄ _ => ?_
  · rw [length_stringPointers]
    exact henvp
  · rw [length_stringPointers, hl₁.number]
  refine LocalsM.Refines.bind (LocalsM.Refines.lift hlift) fun top₅ _ => ?_
  refine LocalsM.Refines.bind (.error (pushAddresses_refines _ _ hl₂.addresses ?_ ?_ _)
    fun _ h => hsame₂.trans h) fun top₆ _ => ?_
  · rw [length_stringPointers]
    exact hargv
  · rw [length_stringPointers, hl₂.number]
  rw [hl₂.number]
  refine LocalsM.Refines.bind (LocalsM.Refines.lift hlift) fun top₇ _ => ?_
  exact LocalsM.Refines.pure hlift

end EnvSetup

/-! ## `call_execve` -/

section CallExecve

variable {s : Forest} {t : TaskId} {args : ExecveArgs} {alloc : Allocator}
  {hostFiles : CString → Option (List Byte)}

theorem ArgumentsCopied.congr (h : ArgumentsCopied args l₀) (hsame : SameHost l₀ l) :
    ArgumentsCopied args l :=
  ⟨hsame.rest.trans h.rest, h.argv.congr (hsame.cells _), h.envp.congr (hsame.cells _)⟩

/-- The numbers of some elements of a list lead to them. -/
theorem map_getElem?_range' {α : Type} (before xs behind : List α) :
    (List.range' before.length xs.length).map (fun p => (before ++ xs ++ behind)[p]?) =
      xs.map some := by
  refine List.ext_getElem (by simp) fun i hi _ => ?_
  have hlt : i < xs.length := by simpa using hi
  rw [List.getElem_map, List.getElem_map, List.getElem_range', Nat.one_mul, List.append_assoc,
    List.getElem?_append_right (Nat.le_add_right _ _), Nat.add_sub_cancel_left,
    List.getElem?_append_left hlt, List.getElem?_eq_getElem hlt]

theorem ArgumentsCopied.pointsTo_argv (h : ArgumentsCopied args l) :
    PointsTo l .argv (args.argv.take (maxNrArgv - 1))
      (List.range' 1 (args.argv.take (maxNrArgv - 1)).length) := by
  refine ⟨h.argv, ?_⟩
  rw [h.rest]
  exact map_getElem?_range' [args.filename] _ args.envp

theorem ArgumentsCopied.pointsTo_envp (h : ArgumentsCopied args l) :
    PointsTo l .envp args.envp
      (List.range' (1 + (args.argv.take (maxNrArgv - 1)).length) args.envp.length) := by
  refine ⟨h.envp, ?_⟩
  have hmap :=
    map_getElem?_range' (args.filename :: args.argv.take (maxNrArgv - 1)) args.envp []
  rw [List.append_nil, List.length_cons, Nat.add_comm] at hmap
  rw [h.rest]
  exact hmap

/-- `call_execve` on lists, without its pairs. -/
theorem callExecve_eq (henvp : args.envp.length < maxNrEnvp) :
    callExecve s t args alloc hostFiles = (do
      let owner ← getLinkedVm s t .vm
      let s ← reclaimTask s owner
      let hostCpath ← execveHostPath (s.vm owner).dirs args.filename
      let loaded ← programInit alloc (s.setVm t { s.vm t with hart := (s.vm t).hart.reset }).heap
        ((s.setVm t { s.vm t with hart := (s.vm t).hart.reset }).vm owner).hart
        ((s.setVm t { s.vm t with hart := (s.vm t).hart.reset }).vm owner).memory
        (hostFiles hostCpath)
      let started ← envSetup loaded.1 loaded.2.1 loaded.2.2 (args.argv.take (maxNrArgv - 1))
        args.envp
      return { (s.setVm t { s.vm t with hart := (s.vm t).hart.reset }).setVm owner
        { (s.setVm t { s.vm t with hart := (s.vm t).hart.reset }).vm owner with
          hart := started.2, memory := loaded.2.2 } with heap := started.1 }) := by
  rw [callExecve, hostEnvp, if_pos henvp]
  rfl

/-- `call_execve` on the arrays does what it does on lists, and frees the strings. -/
theorem callExecve_refines (s : Forest) (t : TaskId) (alloc : Allocator)
    (hostFiles : CString → Option (List Byte)) (henvp : args.envp.length < maxNrEnvp) :
    LocalsM.Refines (fun l => l.rest = ⟨[], []⟩) (ExecveM.callExecve s t args alloc hostFiles)
      (callExecve s t args alloc hostFiles)
      (fun _ l => (∀ v, NullTerminated l v) ∧ l.rest.freed = List.range l.rest.strings.length)
      fun l => ∀ v, NullTerminated l v := by
  rw [callExecve_eq henvp]
  refine LocalsM.Spec.bind (copyArguments_spec henvp).never fun filename => LocalsM.Spec.of_imp ?_
  rintro rfl
  refine LocalsM.Refines.of_forall fun l₀ hl₀ => ?_
  have hlift : ∀ l : ExecveLocals, l = l₀ → ∀ v, NullTerminated l v := by
    rintro l rfl
    exact hl₀.nullTerminated fun _ => rfl
  refine LocalsM.Refines.bind (LocalsM.Refines.lift hlift) fun owner _ => ?_
  refine LocalsM.Refines.bind (LocalsM.Refines.lift hlift) fun s₁ _ => ?_
  refine LocalsM.Spec.bind (Q := fun filename l => filename = args.filename ∧ l = l₀) ?_
    fun filename => LocalsM.Spec.of_imp ?_
  · refine LocalsM.Spec.pre (target_spec (s := args.filename)) ?_
    rintro l rfl
    exact ⟨by rw [hl₀.rest]; rfl, rfl, rfl⟩
  rintro rfl
  refine LocalsM.Refines.bind (LocalsM.Refines.lift hlift) fun hostCpath _ => ?_
  refine LocalsM.Refines.bind (LocalsM.Refines.lift hlift) fun loaded _ => ?_
  refine LocalsM.Refines.bind (.error (envSetup_refines l₀ hl₀.pointsTo_argv hl₀.pointsTo_envp)
    fun _ h => hl₀.nullTerminated h.cells) fun started _ => ?_
  refine LocalsM.Spec.bind (freeArguments_spec.never.pre fun _ h => hl₀.congr h) fun _ => ?_
  exact LocalsM.Refines.pure fun _ h => h

end CallExecve

/-! ## Too many strings -/

/-- A vector without room for the null pointer: it is written behind the array. -/
theorem copyVector_overruns (v : ArgumentVector) {strings : List CString}
    {x : Logged ExecveArray.size ExecveArray.Cell Duplicates}
    (hx : x.Inside) (hlong : v.maxNr ≤ (strings.take v.copyBound).length) :
    ∃ x', (ExecveM.copyVector v strings).outcome x = (.error .outOfBounds, x') ∧
      (ExecveArray.host v, (strings.take v.copyBound).length) ∈ x'.accessed := by
  have hloop := copyLoop_spec x.toLocals [] strings (Nat.zero_le v.copyBound)
  rw [List.length_nil, Nat.sub_zero, List.nil_append] at hloop
  obtain ⟨idx, x₁, houtcome, -, rfl, -⟩ := hloop.returns hx (.start v)
  refine ⟨x₁.access (.host v) (strings.take v.copyBound).length, ?_, ?_⟩
  · rw [ExecveM.copyVector, LocalsM.outcome_bind_ok houtcome]
    exact LocalsM.outcome_write_outside (ExecveArray.host v) hlong _
  · exact List.mem_append_right _ List.mem_cons_self

section Runs

variable {s : Forest} {t : TaskId} {args : ExecveArgs} {alloc : Allocator}
  {hostFiles : CString → Option (List Byte)}

/-- The arrays when `call_execve` starts, with whatever the stack held before. -/
def ExecveArray.entry (cells : (a : ExecveArray) → Fin a.size → a.Cell) :
    Logged ExecveArray.size ExecveArray.Cell Duplicates :=
  ⟨⟨cells, ⟨[], []⟩⟩, []⟩

variable {cells : (a : ExecveArray) → Fin a.size → a.Cell}

/-- An environment that fills the array: its null pointer is written behind it. -/
theorem copyArguments_overruns (hlong : maxNrEnvp ≤ args.envp.length) :
    ∃ x, (ExecveM.copyArguments args).outcome (ExecveArray.entry cells) =
        (.error .outOfBounds, x) ∧
      (ExecveArray.host .envp, maxNrEnvp) ∈ x.accessed := by
  have hargvTake : (args.argv.take ArgumentVector.argv.copyBound).length <
      ArgumentVector.argv.maxNr := by
    rw [List.length_take]
    exact (Nat.min_le_left _ _).trans_lt (by decide)
  have henvpTake : (args.envp.take ArgumentVector.envp.copyBound).length = maxNrEnvp :=
    List.length_take_of_le hlong
  have hstrdup : (ExecveM.strdup args.filename).outcome (ExecveArray.entry cells) =
      (.ok 0, ⟨⟨cells, ⟨[args.filename], []⟩⟩, []⟩) := rfl
  obtain ⟨u, x₁, hargv, hinside, -⟩ :=
    (copyVector_spec ⟨cells, ⟨[args.filename], []⟩⟩ hargvTake).returns (Logged.inside_nil _) rfl
  obtain ⟨x, henvp, hmem⟩ := copyVector_overruns .envp hinside henvpTake.ge
  rw [henvpTake] at hmem
  refine ⟨x, ?_, hmem⟩
  rw [ExecveM.copyArguments, LocalsM.outcome_bind_ok hstrdup, LocalsM.outcome_bind_ok hargv,
    LocalsM.outcome_bind_error henvp]

theorem callExecve_overruns (s : Forest) (t : TaskId) (alloc : Allocator)
    (hostFiles : CString → Option (List Byte))
    (cells : (a : ExecveArray) → Fin a.size → a.Cell) (hlong : maxNrEnvp ≤ args.envp.length) :
    ∃ x, (ExecveM.callExecve s t args alloc hostFiles).outcome (ExecveArray.entry cells) =
        (.error .outOfBounds, x) ∧
      (ExecveArray.host .envp, maxNrEnvp) ∈ x.accessed := by
  obtain ⟨x, hcopy, hmem⟩ := copyArguments_overruns hlong
  exact ⟨x, LocalsM.outcome_bind_error hcopy, hmem⟩

/-- The code on the arrays returns what the code on lists returns. -/
theorem execveArrays_result :
    ((ExecveM.callExecve s t args alloc hostFiles).outcome (ExecveArray.entry cells)).1 =
      callExecve s t args alloc hostFiles := by
  by_cases henvp : args.envp.length < maxNrEnvp
  · obtain ⟨-, hok, herror⟩ := callExecve_refines s t alloc hostFiles henvp
      (ExecveArray.entry cells) (Logged.inside_nil _) rfl
    cases hresult : ((ExecveM.callExecve s t args alloc hostFiles).outcome
        (ExecveArray.entry cells)).1 with
    | ok s' => exact (hok s' hresult).1.symm
    | error e => exact (herror e hresult).1.symm
  · obtain ⟨x, houtcome, -⟩ := callExecve_overruns s t alloc hostFiles cells
      (Nat.not_lt.mp henvp)
    rw [houtcome, callExecve, hostEnvp, if_neg henvp]
    rfl

/-- `call_execve` keeps to its arrays: they are accessed inside their bounds, both
vectors have a null pointer when `env_setup` reads them and when the strings are freed,
and a call that returns has freed every string once. -/
structure VectorsInBounds (s : Forest) (t : TaskId) (args : ExecveArgs) (alloc : Allocator)
    (hostFiles : CString → Option (List Byte))
    (cells : (a : ExecveArray) → Fin a.size → a.Cell) : Prop where
  inside : ((ExecveM.callExecve s t args alloc hostFiles).outcome
    (ExecveArray.entry cells)).2.Inside
  terminated : ∃ x, (ExecveM.copyArguments args).outcome (ExecveArray.entry cells) = (.ok 0, x) ∧
    ∀ v, NullTerminated x.toLocals v
  kept : ∀ v, NullTerminated ((ExecveM.callExecve s t args alloc hostFiles).outcome
    (ExecveArray.entry cells)).2.toLocals v
  freed : ∀ s', ((ExecveM.callExecve s t args alloc hostFiles).outcome
      (ExecveArray.entry cells)).1 = .ok s' →
    List.Perm ((ExecveM.callExecve s t args alloc hostFiles).outcome
        (ExecveArray.entry cells)).2.rest.freed
      (List.range ((ExecveM.callExecve s t args alloc hostFiles).outcome
        (ExecveArray.entry cells)).2.rest.strings.length)

theorem not_vectorsInBounds (hlong : maxNrEnvp ≤ args.envp.length) :
    ¬ VectorsInBounds s t args alloc hostFiles cells := by
  intro h
  obtain ⟨x, houtcome, hmem⟩ := callExecve_overruns s t alloc hostFiles cells hlong
  have hinside := h.inside
  rw [houtcome] at hinside
  exact absurd (hinside _ hmem) (Nat.lt_irrefl _)

/-- `call_execve` keeps to its arrays exactly if the environment leaves a slot for its
null pointer. -/
theorem vectorsInBounds_iff (s : Forest) (t : TaskId) (args : ExecveArgs) (alloc : Allocator)
    (hostFiles : CString → Option (List Byte))
    (cells : (a : ExecveArray) → Fin a.size → a.Cell) :
    VectorsInBounds s t args alloc hostFiles cells ↔ args.envp.length < maxNrEnvp := by
  constructor
  · intro h
    by_contra hlong
    exact not_vectorsInBounds (Nat.not_lt.mp hlong) h
  · intro henvp
    obtain ⟨hinside, hok, herror⟩ := callExecve_refines s t alloc hostFiles henvp
      (ExecveArray.entry cells) (Logged.inside_nil _) rfl
    obtain ⟨filename, x, hcopy, -, rfl, hcopied⟩ :=
      (copyArguments_spec henvp).returns (Logged.inside_nil ⟨cells, ⟨[], []⟩⟩) rfl
    refine ⟨hinside, ⟨x, hcopy, hcopied.nullTerminated fun _ => rfl⟩, ?_, ?_⟩
    · cases hresult : ((ExecveM.callExecve s t args alloc hostFiles).outcome
          (ExecveArray.entry cells)).1 with
      | ok s' => exact (hok s' hresult).2.1
      | error e => exact (herror e hresult).2
    · intro s' hresult
      rw [(hok s' hresult).2.2]

end Runs

/-- An array of null pointers and zeros. -/
def zeroCells : (a : ExecveArray) → Fin a.size → a.Cell
  | .host _ => fun _ => none
  | .pointer _ => fun _ => 0

/-- An environment of as many strings as the array has slots, behind the start-up. -/
theorem execve_full_environment :
    ∃ s, (forestRuns slashX).Reachable s ∧
      ¬ VectorsInBounds s 0 ⟨sh, [sh], List.replicate 128 setA⟩ (.lowest 8) (fun _ => none)
        zeroCells := by
  have hboots : (applicationSandboxInit (bareBoot slashX) (.lowest 8)).toOption.isSome = true := by
    decide +kernel
  obtain ⟨s, hboot⟩ := Option.isSome_iff_exists.mp hboots
  exact ⟨s, .init ⟨_, _, rfl, toOption_eq_some.mp hboot⟩,
    not_vectorsInBounds (List.length_replicate.ge)⟩

end Hyrule
