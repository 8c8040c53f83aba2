import Hyrule.Lib.Fifo
import Hyrule.Sched.Safety

/-!
# Round robin

The running list is a waiting line, and a dispatch serves the first in it.  A yielding
task, the tasks that were woken and a new clone all go behind the tasks that wait, and a
task in the list is in the state `TASK_STATE_RUNNING`, so that `process_running_list` takes
the first one and skips none.  Every step of a run is a step of the line
(`Sched.Settled.fifo_step`).  So a task at position `k` becomes current at the dispatch
number `k + 1` (`round_robin`).
-/

namespace Hyrule

open Lib Lib.Result

/-- The running list and the current task. -/
def Sched.fifo (s : Sched) : Fifo TaskId := ⟨s.queues.toList .running, s.current⟩

/-- A step of the current task enters the trap handler.  A call of `wait4` does if it
blocks. -/
def Sched.dispatches (s : Sched) : TaskAction → Bool
  | .yield | .exit => true
  | .clone _ | .resume => false
  | .wait4 pidHint options =>
      match s.current.map fun c => callWait4 s c pidHint options with
      | some (.ok (none, _)) => true
      | _ => false

/-! ## Steps -/

section Steps

variable {s s' : Sched} {r b g r' b' g' : List TaskId} {w k w' k' : TaskId → List BlobId}

theorem Sched.Consistent.fifo_eq (h : s.Consistent r b g w k) : s.fifo = ⟨r, s.current⟩ := by
  rw [Sched.fifo, h.queued.toList .running]
  rfl

/-- Without a dispatch, tasks may join. -/
theorem Sched.Consistent.fifo_join (h : s.Consistent r b g w k) {l : List TaskId}
    (h' : s'.Consistent (r ++ l) b' g' w' k') (hcurrent : s'.current = s.current) :
    Fifo.Step s.fifo false s'.fifo := by
  rw [h.fifo_eq, h'.fifo_eq, hcurrent]
  exact .join _ l

/-- Nothing happens to the line. -/
theorem Sched.Consistent.fifo_keep (h : s.Consistent r b g w k)
    (h' : s'.Consistent r b' g' w' k') (hcurrent : s'.current = s.current) :
    Fifo.Step s.fifo false s'.fifo := by
  rw [← List.append_nil r] at h'
  exact h.fifo_join h' hcurrent

/-- A dispatch serves the first, also if it is entered behind changes to the tasks. -/
theorem Sched.Consistent.fifo_dispatch {s₁ : Sched} (h : s.Consistent r b g w k)
    (h₁ : s₁.Consistent r b' g' w' k') (hrun : userspaceTrapHandler s₁ = .ok s') :
    Fifo.Step s.fifo true s'.fifo := by
  obtain ⟨queues, hdispatch, -, hcons⟩ := h₁.dispatch
  obtain rfl := Except.ok.inj (hdispatch.symm.trans hrun)
  rw [h.fifo_eq, hcons.fifo_eq, Sched.dispatchRunning, List.append_assoc]
  exact .serve ⟨r, s.current⟩ _

/-- Every step that a task makes is a step of the line. -/
theorem Sched.Settled.fifo_step (h : s.Settled) {action : TaskAction}
    (hstep : s.perform action = some (.ok s')) :
    Fifo.Step s.fifo (s.dispatches action) s'.fifo := by
  obtain ⟨hcpu, r, b, g, w, k, hcons⟩ := h
  rcases Sched.perform_cases hstep with ⟨rfl, hrun⟩ | ⟨c, hc, ⟨flags, rfl, -, hrun⟩ |
    ⟨pidHint, options, rfl, hp, hrun⟩ | ⟨rfl, hp, hrun⟩ | ⟨wait, rfl, hp, hrun⟩⟩
  · exact hcons.fifo_dispatch hcons hrun.symm
  · obtain ⟨queues, globalTasks, waitQueues, hclone, -, hcons'⟩ := hcons.clone hcpu c flags
    obtain rfl := Except.ok.inj (hrun.trans hclone)
    exact hcons.fifo_join hcons' rfl
  · obtain ⟨d, l, s₁, w', k', ret, target, hd, hscan, hfound, hblock, hreturn⟩ :=
      hcons.callWait4 (hcpu c hc) hp pidHint options
    by_cases hqueued : k' c = []
    · obtain ⟨globalTasks, waitQueues, waitBlobs, w'', hcall, hcons'⟩ := hreturn hqueued
      have hdispatches : s.dispatches (.wait4 pidHint options) = false := by
        simp only [Sched.dispatches, hc, Option.map_some, hcall]
      rw [hcall, ok_bind, pure_eq_ok] at hrun
      obtain rfl := Except.ok.inj hrun
      rw [hdispatches]
      obtain ⟨_, _, _, _, rfl⟩ := hscan.same
      exact hcons.fifo_keep hcons' rfl
    · have hblocked := hcons.block hcpu hc ⟨ret, target, pidHint, options⟩
        hfound.target_ne_none hd hscan
      rw [hblock hqueued] at hrun
      obtain ⟨⟨value, s₂⟩, hcall, hrun⟩ := bind_eq_ok.mp hrun.symm
      obtain ⟨s₃, htrap, hcall⟩ := bind_eq_ok.mp hcall
      cases hcall
      cases hrun
      have hdispatches : s.dispatches (.wait4 pidHint options) = true := by
        simp only [Sched.dispatches, hc, Option.map_some, hblock hqueued, htrap, ok_bind,
          pure_eq_ok]
      rw [hdispatches]
      exact hcons.fifo_dispatch hblocked htrap
  · rw [hcons.doExit_eq hcpu hc] at hrun
    exact hcons.fifo_dispatch (hcons.exit hc hp) hrun.symm
  · obtain ⟨globalTasks, waitQueues, waitBlobs, w', hfinish, hcons'⟩ :=
      hcons.finish c wait.options (hcons.targets c wait hp)
    rw [resumeWait4, hfinish, ok_bind, pure_eq_ok] at hrun
    obtain rfl := Except.ok.inj hrun
    exact hcons.fifo_keep hcons' rfl

end Steps

/-! ## Runs -/

/-- The steps of a run that dispatch. -/
def dispatchSteps (steps : List (System.Step Sched TaskAction)) : List Bool :=
  steps.map fun x => x.before.dispatches x.label

/-- A run of the scheduler is one of the line. -/
theorem fifo_run {s s' : Sched} {steps : List (System.Step Sched TaskAction)}
    (h : schedRuns.Reachable s) (hrun : schedRuns.Run s steps s') :
    Fifo.Run s.fifo (dispatchSteps steps) s'.fifo := by
  induction hrun with
  | nil s => exact .nil _
  | cons hstep _ ih =>
    exact .cons ((Sched.settled_of_reachable h).fifo_step hstep) (ih (h.step hstep))

/-- Whatever the tasks do behind a state of a run in which a task stands at position `k` of the
running list: up to the `k`-th dispatch it is not current and waits in the list, and at the
next one it becomes current.  The tasks that wait stay in their order, and those that come
later are behind them. -/
theorem round_robin {s s' : Sched} {t : TaskId} {k : Nat}
    {steps : List (System.Step Sched TaskAction)} (h : schedRuns.Reachable s)
    (hk : (s.queues.toList .running)[k]? = some t) (hrun : schedRuns.Run s steps s') :
    ((dispatchSteps steps).count true ≤ k → s'.current ≠ some t ∧
      (s'.queues.toList .running)[k - (dispatchSteps steps).count true]? = some t) ∧
    (∀ earlier, dispatchSteps steps = earlier ++ [true] → earlier.count true = k →
      s'.current = some t) ∧
    ((dispatchSteps steps).count true ≤ (s.queues.toList .running).length →
      ∃ later, s'.queues.toList .running =
        (s.queues.toList .running).drop ((dispatchSteps steps).count true) ++ later) := by
  have hfifo := fifo_run h hrun
  refine ⟨fun hle => ?_, fun earlier hsteps hcount => ?_, fun hle => hfifo.waiting_eq hle⟩
  · have hwaiting : (s'.queues.toList .running)[k - (dispatchSteps steps).count true]? = some t :=
      hfifo.waiting_getElem? hk hle
    refine ⟨fun hcurrent => ?_, hwaiting⟩
    obtain ⟨-, r, b, g, w, k', hcons⟩ := Sched.settled_of_reachable (h.of_run hrun)
    rw [hcons.queued.toList .running] at hwaiting
    exact (hcons.current t hcurrent).1 (List.mem_of_getElem? hwaiting)
  · rw [hsteps] at hfifo
    exact hfifo.served_eq (hcount ▸ hk)

/-- The first task has made two others and yielded to one of them.  It is the second in the
list, and runs again at the second dispatch. -/
theorem round_robin_three_tasks :
    ∃ s steps s', schedRuns.Reachable s ∧ (s.queues.toList .running)[1]? = some 0 ∧
      schedRuns.Run s steps s' ∧ dispatchSteps steps = [true, true] ∧ s'.current = some 0 := by
  have hrun : (do
      let s ← schedRun [.yield, .clone 0, .clone 0, .yield]
      let s₁ ← s.follow .yield
      let _ ← s₁.follow .yield
      return (s.queues.toList .running)[1]?) = some (some 0) := by
    decide +kernel
  simp only [Option.bind_eq_bind, Option.bind_eq_some_iff, Option.pure_def,
    Option.some.injEq] at hrun
  obtain ⟨s, hs, s₁, h₁, s₂, h₂, hk⟩ := hrun
  have hreach := reachable_of_schedRun hs
  have hsteps := System.Run.cons (schedRuns_step_of_follow h₁)
    (.cons (schedRuns_step_of_follow h₂) (.nil s₂))
  exact ⟨s, _, s₂, hreach, hk, hsteps, rfl, (round_robin hreach hk hsteps).2.1 [true] rfl rfl⟩

end Hyrule
