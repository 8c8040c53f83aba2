import Hyrule.Sched.Wait

/-!
# Scheduler safety

Any task that is current may clone, wait, exit or yield, in any order.
`Sched.Consistent` ties the states of the tasks, the three queues, the current
task, the global task list and the two lists of every wait blob together.  It
allows the current task to be about to leave the processor, so a dispatch needs
nothing else (`Sched.Consistent.dispatch`).  Every other step is shown to keep it
up to its dispatch, if it has one.

`scheduler_safe` is the result: no step fails, every live task is held in exactly
one place, and an exited task is never current again.
-/

namespace Hyrule

open Lib Lib.Result

/-! ## The invariant -/

/-- The lists of a state, and what its tasks are to them. -/
structure Sched.Consistent (s : Sched) (r b g : List TaskId) (w k : TaskId → List BlobId) : Prop
    extends s.Dispatchable r b where
  registered : s.globalTasks.Represents fun _ => g
  waits : s.WaitLists w k
  /-- The live tasks are the ones in the lists and the current one. -/
  held : ∀ t, t < s.nrTasks ∧ (s.tasks t).waitStateExited = false ↔
    t ∈ r ∨ t ∈ b ∨ s.current = some t ∧ (s.tasks t).state ≠ .exiting
  created : ∀ t ∈ g, t < s.nrTasks
  awaited : ∀ p, ∀ t ∈ s.awaited k p, t < s.nrTasks
  /-- A task outside `wait4` waits for nothing. -/
  idle : ∀ p, s.pending p = none → k p = []
  waiting : ∀ p, s.pending p ≠ none → p < s.nrTasks ∧ (s.tasks p).waitStateExited = false
  targets : ∀ p wait, s.pending p = some wait → 0 < wait.ret.toInt → wait.target ≠ none

/-- The current task is in the state `TASK_STATE_RUNNING`. -/
def Sched.OnCpu (s : Sched) : Prop := ∀ c, s.current = some c → (s.tasks c).state = .running

/-- What holds between the steps of a run. -/
def Sched.Settled (s : Sched) : Prop :=
  s.OnCpu ∧ ∃ r b g w k, s.Consistent r b g w k

/-! ## A dispatch -/

theorem Sched.Dispatchable.mem_dispatch {s : Sched} {r b : List TaskId} (h : s.Dispatchable r b)
    (t : TaskId) : t ∈ s.dispatchRunning r b ∨ t ∈ s.dispatchBlocking b ↔
      t ∈ r ∨ t ∈ b ∨ s.current = some t ∧ (s.tasks t).state ≠ .exiting := by
  simp only [Sched.dispatchRunning, Sched.dispatchBlocking, List.mem_append, List.mem_filter,
    Sched.mem_currentIn, Sched.isRunning, decide_eq_true_eq, Bool.not_eq_true',
    decide_eq_false_iff_not]
  constructor
  · rintro (((ht | ⟨hc, hst⟩) | ⟨ht, -⟩) | (⟨ht, -⟩ | ⟨hc, hst⟩))
    · exact Or.inl ht
    · exact Or.inr (Or.inr ⟨hc, by simp [hst]⟩)
    · exact Or.inr (Or.inl ht)
    · exact Or.inr (Or.inl ht)
    · exact Or.inr (Or.inr ⟨hc, by simp [hst]⟩)
  · rintro (ht | ht | ⟨hc, hst⟩)
    · exact Or.inl (Or.inl (Or.inl ht))
    · by_cases hrun : (s.tasks t).state = .running
      · exact Or.inl (Or.inr ⟨ht, hrun⟩)
      · exact Or.inr (Or.inl ⟨ht, hrun⟩)
    · rcases (h.current t hc).2.2 with hrun | hint | hexit
      · exact Or.inl (Or.inl (Or.inr ⟨hc, hrun⟩))
      · exact Or.inr (Or.inr ⟨hc, hint⟩)
      · exact absurd hexit hst

/-- No task is in two places after a dispatch. -/
theorem Sched.Dispatchable.nodup_dispatch {s : Sched} {r b : List TaskId}
    (h : s.Dispatchable r b) : (s.dispatchRunning r b ++ s.dispatchBlocking b).Nodup := by
  have hr : r.Nodup := h.queued.nodup .running
  have hb : b.Nodup := h.queued.nodup .blocking
  have hrb : ∀ t ∈ r, t ∉ b := fun t htr htb => by
    cases h.queued.apart .running .blocking t htr htb
  have hcur : ∀ state, (s.currentIn state).Nodup := fun state => by
    refine List.Nodup.filter _ ?_
    cases s.current with
    | none => exact List.nodup_nil
    | some c => exact List.nodup_singleton c
  simp only [Sched.dispatchRunning, Sched.dispatchBlocking]
  simp only [List.nodup_append, hr, hcur, hb.filter, List.mem_append, List.mem_filter,
    Sched.mem_currentIn, true_and]
  grind [h.current]

theorem Sched.Dispatchable.state_dispatchBlocking {s : Sched} {r b : List TaskId}
    (h : s.Dispatchable r b) :
    ∀ t ∈ s.dispatchBlocking b, (s.tasks t).state = .interruptible := by
  intro t ht
  simp only [Sched.dispatchBlocking, List.mem_append, List.mem_filter, Sched.mem_currentIn,
    Sched.isRunning, Bool.not_eq_true', decide_eq_false_iff_not] at ht
  rcases ht with ⟨ht, hrun⟩ | ⟨-, hint⟩
  · exact (h.blocking t ht).resolve_left hrun
  · exact hint

/-- A dispatch saves the context of the task it leaves, and the other queued tasks had
theirs saved. -/
theorem Sched.Consistent.saved_dispatch {s : Sched} {r b g : List TaskId}
    {w k : TaskId → List BlobId} (h : s.Consistent r b g w k) :
    ∀ t ∈ (s.dispatchRunning r b).tail ++ s.dispatchBlocking b,
      Function.update s.hostCpustate s.current true (some t) = true := by
  intro t ht
  have hdispatch : t ∈ s.dispatchRunning r b ∨ t ∈ s.dispatchBlocking b := by
    rcases List.mem_append.mp ht with ht | ht
    · exact Or.inl (List.mem_of_mem_tail ht)
    · exact Or.inr ht
  by_cases hc : s.current = some t
  · rw [hc, Function.update_self]
  · rw [Function.update_of_ne (Ne.symm hc)]
    refine h.saved t (List.mem_append.mpr ?_)
    rcases (h.mem_dispatch t).mp hdispatch with ht | ht | ⟨hc', -⟩
    · exact Or.inl ht
    · exact Or.inr ht
    · exact absurd hc' hc

/-- A dispatch keeps the invariant, and the task it takes is running. -/
theorem Sched.Consistent.dispatch {s : Sched} {r b g : List TaskId}
    {w k : TaskId → List BlobId} (h : s.Consistent r b g w k) :
    ∃ queues, userspaceTrapHandler s = .ok { s with
        queues
        current := (s.dispatchRunning r b).head?
        hostCpustate := Function.update s.hostCpustate s.current true } ∧
      Sched.OnCpu { s with
        queues
        current := (s.dispatchRunning r b).head?
        hostCpustate := Function.update s.hostCpustate s.current true } ∧
      Sched.Consistent { s with
        queues
        current := (s.dispatchRunning r b).head?
        hostCpustate := Function.update s.hostCpustate s.current true }
        (s.dispatchRunning r b).tail (s.dispatchBlocking b) g w k := by
  obtain ⟨queues, hrun, hrep⟩ := userspaceTrapHandler_spec h.toDispatchable
  have hrunning := h.state_dispatchRunning
  have hblocking := h.state_dispatchBlocking
  have hnodup := h.nodup_dispatch
  have hmem : ∀ t, (t ∈ (s.dispatchRunning r b).tail ∨ t ∈ s.dispatchBlocking b ∨
      (s.dispatchRunning r b).head? = some t) ↔
        t ∈ s.dispatchRunning r b ∨ t ∈ s.dispatchBlocking b := by
    intro t
    cases s.dispatchRunning r b with
    | nil => simp
    | cons c l =>
      simp only [List.tail_cons, List.head?_cons, Option.some.injEq, List.mem_cons]
      tauto
  have hhead : ∀ c, (s.dispatchRunning r b).head? = some c → (s.tasks c).state = .running :=
    fun c hc => hrunning c (List.mem_of_head? hc)
  refine ⟨queues, hrun, hhead, ?_⟩
  refine { queued := hrep
           running := fun t ht => hrunning t (List.mem_of_mem_tail ht)
           blocking := fun t ht => Or.inr (hblocking t ht)
           current := ?_
           saved := h.saved_dispatch
           savedIdle := ?_
           registered := h.registered
           waits := ⟨h.waits.queues, h.waits.lists, h.waits.of_queue, h.waits.of_list⟩
           held := ?_
           created := h.created
           awaited := h.awaited
           idle := h.idle
           waiting := h.waiting
           targets := h.targets }
  · intro c hc
    refine ⟨?_, ?_, Or.inl (hhead c hc)⟩
    · intro hin
      obtain ⟨l, hl⟩ := List.head?_eq_some_iff.mp hc
      rw [hl] at hin hnodup
      exact (List.nodup_cons.mp (List.nodup_append.mp hnodup).1).1 hin
    · intro hin
      exact (List.nodup_append.mp hnodup).2.2 c (List.mem_of_head? hc) c hin rfl
  · refine Or.inr ?_
    by_cases hc : s.current = none
    · show Function.update s.hostCpustate s.current true none = true
      rw [hc, Function.update_self]
    · show Function.update s.hostCpustate s.current true none = true
      rw [Function.update_of_ne (Ne.symm hc)]
      exact h.savedIdle.resolve_left hc
  · intro t
    show t < s.nrTasks ∧ (s.tasks t).waitStateExited = false ↔ _ ∨ _ ∨
      (s.dispatchRunning r b).head? = some t ∧ (s.tasks t).state ≠ .exiting
    rw [h.held t, ← h.mem_dispatch t, ← hmem t]
    have : (s.dispatchRunning r b).head? = some t → (s.tasks t).state ≠ .exiting :=
      fun hc => by simp [hhead t hc]
    tauto

/-! ## Clone -/

/-- The state behind a clone, but for the lists. -/
def Sched.cloned (s : Sched) (c : TaskId) (flags : Word) (queues : ListHeap Queue TaskId)
    (globalTasks : ListHeap Unit TaskId) (waitQueues : ListHeap TaskId BlobId) : Sched :=
  { s with
    tasks := Function.update s.tasks s.nrTasks (childTask s c flags)
    nrTasks := s.nrTasks + 1
    gpidCounter := s.gpidCounter + 1
    hostCpustate := Function.update s.hostCpustate (some s.nrTasks) true
    queues
    globalTasks
    waitQueues }

section Clone

variable {s : Sched} {r b g : List TaskId} {w k : TaskId → List BlobId} {t : TaskId}

/-- The tasks in the lists and the current one have been created. -/
theorem Sched.Consistent.listed_lt (h : s.Consistent r b g w k) (hcpu : s.OnCpu)
    (ht : t ∈ r ∨ t ∈ b ∨ s.current = some t) : t < s.nrTasks := by
  refine ((h.held t).mpr ?_).1
  rcases ht with ht | ht | ht
  · exact Or.inl ht
  · exact Or.inr (Or.inl ht)
  · exact Or.inr (Or.inr ⟨ht, by simp [hcpu t ht]⟩)

/-- The next task is in no list, and nobody waits for it. -/
theorem Sched.Consistent.fresh (h : s.Consistent r b g w k) (hcpu : s.OnCpu) :
    s.nrTasks ∉ r ∧ s.nrTasks ∉ b ∧ s.nrTasks ∉ g ∧ w s.nrTasks = [] := by
  refine ⟨fun ht => ?_, fun ht => ?_, fun ht => Nat.lt_irrefl _ (h.created _ ht), ?_⟩
  · exact Nat.lt_irrefl _ (h.listed_lt hcpu (Or.inl ht))
  · exact Nat.lt_irrefl _ (h.listed_lt hcpu (Or.inr (Or.inl ht)))
  · refine List.eq_nil_iff_forall_not_mem.mpr fun blob hblob => ?_
    obtain ⟨-, hvm, hin⟩ := h.waits.of_queue _ blob hblob
    exact Nat.lt_irrefl _ (h.awaited _ _ (List.mem_map.mpr ⟨blob, hin, hvm⟩))

/-- The state behind a clone, with the child in the running list and in the task list. -/
theorem Sched.Consistent.cloned (h : s.Consistent r b g w k) (hcpu : s.OnCpu) (c : TaskId)
    (flags : Word) {queues : ListHeap Queue TaskId} {globalTasks : ListHeap Unit TaskId}
    (hq : queues.Represents (queueLists (r ++ [s.nrTasks]) b []))
    (hg : globalTasks.Represents fun _ => g ++ [s.nrTasks]) :
    (s.cloned c flags queues globalTasks (s.waitQueues.initHead s.nrTasks)).OnCpu ∧
      (s.cloned c flags queues globalTasks (s.waitQueues.initHead s.nrTasks)).Consistent
        (r ++ [s.nrTasks]) b (g ++ [s.nrTasks]) w k := by
  set s₁ := s.cloned c flags queues globalTasks (s.waitQueues.initHead s.nrTasks)
  have hchild : (s₁.tasks s.nrTasks).state = .running := by simp [s₁, Sched.cloned, childTask]
  have hold : ∀ t, t < s.nrTasks → s₁.tasks t = s.tasks t := fun t ht =>
    Function.update_of_ne (Nat.ne_of_lt ht) _ _
  refine ⟨fun d hd => ?_,
         { queued := hq
           running := ?_
           blocking := ?_
           current := ?_
           saved := ?_
           savedIdle := ?_
           registered := hg
           waits := ⟨h.waits.queues.initHead (h.fresh hcpu).2.2.2, h.waits.lists,
             h.waits.of_queue, h.waits.of_list⟩
           held := ?_
           created := ?_
           awaited := fun p t ht => Nat.lt_succ_of_lt (h.awaited p t ht)
           idle := h.idle
           waiting := ?_
           targets := h.targets }⟩
  · rw [hold d (h.listed_lt hcpu (Or.inr (Or.inr hd)))]
    exact hcpu d hd
  · intro t ht
    rcases List.mem_append.mp ht with ht | ht
    · rw [hold t (h.listed_lt hcpu (Or.inl ht))]
      exact h.running t ht
    · rw [List.mem_singleton.mp ht]
      exact hchild
  · intro t ht
    rw [hold t (h.listed_lt hcpu (Or.inr (Or.inl ht)))]
    exact h.blocking t ht
  · intro d hd
    obtain ⟨hdr, hdb, hst⟩ := h.current d hd
    have hlt := h.listed_lt hcpu (Or.inr (Or.inr hd))
    refine ⟨by simp [hdr, Nat.ne_of_lt hlt], hdb, ?_⟩
    rwa [hold d hlt]
  · intro t ht
    show Function.update s.hostCpustate (some s.nrTasks) true (some t) = true
    by_cases hn : t = s.nrTasks
    · rw [hn, Function.update_self]
    · rw [Function.update_of_ne (by simpa using hn)]
      refine h.saved t ?_
      simpa [hn] using ht
  · exact h.savedIdle.imp_right fun hsaved => by
      show Function.update s.hostCpustate (some s.nrTasks) true none = true
      rw [Function.update_of_ne (by simp), hsaved]
  · intro t
    show t < s.nrTasks + 1 ∧ (s₁.tasks t).waitStateExited = false ↔ t ∈ r ++ [s.nrTasks] ∨ t ∈ b ∨
      s.current = some t ∧ (s₁.tasks t).state ≠ .exiting
    by_cases hn : t = s.nrTasks
    · subst hn
      simp [s₁, Sched.cloned, childTask, Task.blank]
    · by_cases hlt : t < s.nrTasks
      · rw [hold t hlt, List.mem_append, List.mem_singleton, or_iff_left hn, ← h.held t]
        exact and_congr_left' ⟨fun _ => hlt, Nat.lt_succ_of_lt⟩
      · constructor
        · rintro ⟨ht, -⟩
          omega
        · rintro (ht | ht | ⟨ht, -⟩)
          · rw [List.mem_append, List.mem_singleton, or_iff_left hn] at ht
            exact absurd (h.listed_lt hcpu (Or.inl ht)) hlt
          · exact absurd (h.listed_lt hcpu (Or.inr (Or.inl ht))) hlt
          · exact absurd (h.listed_lt hcpu (Or.inr (Or.inr ht))) hlt
  · intro t ht
    rcases List.mem_append.mp ht with ht | ht
    · exact Nat.lt_succ_of_lt (h.created t ht)
    · rw [List.mem_singleton.mp ht]
      exact Nat.lt_succ_self _
  · intro p hp
    obtain ⟨hlt, hexit⟩ := h.waiting p hp
    refine ⟨Nat.lt_succ_of_lt hlt, ?_⟩
    rwa [hold p hlt]

/-- The child of a clone is last in the running list and in the task list. -/
theorem Sched.Consistent.clone (h : s.Consistent r b g w k) (hcpu : s.OnCpu) (c : TaskId)
    (flags : Word) :
    ∃ queues globalTasks waitQueues,
      cloneTask s c flags = .ok (s.cloned c flags queues globalTasks waitQueues) ∧
      (s.cloned c flags queues globalTasks waitQueues).OnCpu ∧
      (s.cloned c flags queues globalTasks waitQueues).Consistent
        (r ++ [s.nrTasks]) b (g ++ [s.nrTasks]) w k := by
  obtain ⟨hnewRunning, hnewBlocking, hnewGlobal, -⟩ := h.fresh hcpu
  have hout := not_mem_queueLists hnewRunning hnewBlocking (List.not_mem_nil)
  obtain ⟨globalTasks, hregister, hg⟩ :=
    (h.registered.initNode fun _ => hnewGlobal).append () fun _ => hnewGlobal
  have hconst : Function.update (fun _ : Unit => g) () (g ++ [s.nrTasks]) =
      fun _ => g ++ [s.nrTasks] := by
    funext u
    simp
  rw [hconst] at hg
  let s₁ : Sched := s.cloned c flags (s.queues.initNode s.nrTasks) globalTasks
    (s.waitQueues.initHead s.nrTasks)
  have hchild : (s₁.tasks s.nrTasks).state = .running := by simp [s₁, Sched.cloned, childTask]
  obtain ⟨queues, hschedule, hq⟩ := scheduleTask_spec (s := s₁) (h.queued.initNode hout) hout
    (show queueOf (s₁.tasks s.nrTasks).state = some .running by rw [hchild]; rfl)
  rw [update_running] at hq
  refine ⟨queues, globalTasks, s.waitQueues.initHead s.nrTasks, ?_, h.cloned hcpu c flags hq hg⟩
  simp only [cloneTask, registerTask, hregister, ok_bind, pure_eq_ok]
  exact hschedule

end Clone

/-! ## Exit -/

/-- The tasks behind the exit of a task that wakes the tasks of some blobs. -/
def Sched.exitTasks (s : Sched) (c : TaskId) (blobs : List BlobId) (t : TaskId) : Task :=
  if t = c then { s.tasks c with waitStateExited := true, state := .exiting }
  else s.wokenTasks blobs t

/-- The tasks that wait for a task are held and not exiting. -/
theorem Sched.Consistent.waiter_state {s : Sched} {r b g : List TaskId}
    {w k : TaskId → List BlobId} (h : s.Consistent r b g w k) (hcpu : s.OnCpu) {t : TaskId}
    {blob : BlobId} (hblob : blob ∈ w t) :
    s.pending (s.blobs blob).task ≠ none ∧
      ((s.tasks (s.blobs blob).task).state = .running ∨
        (s.tasks (s.blobs blob).task).state = .interruptible) := by
  obtain ⟨-, -, hin⟩ := h.waits.of_queue t blob hblob
  have hpending : s.pending (s.blobs blob).task ≠ none := fun hp => by
    rw [h.idle _ hp] at hin
    cases hin
  refine ⟨hpending, ?_⟩
  rcases (h.held _).mp (h.waiting _ hpending) with hr | hb | ⟨hc, -⟩
  · exact Or.inl (h.running _ hr)
  · exact h.blocking _ hb
  · exact Or.inl (hcpu _ hc)

/-- An exit is a change of the tasks and a dispatch. -/
theorem Sched.Consistent.doExit_eq {s : Sched} {r b g : List TaskId}
    {w k : TaskId → List BlobId} (h : s.Consistent r b g w k) (hcpu : s.OnCpu) {c : TaskId}
    (hc : s.current = some c) :
    doExit s c = userspaceTrapHandler { s with tasks := s.exitTasks c (w c) } := by
  let s₁ := s.modifyTask c fun task => { task with waitStateExited := true }
  have hstate : ∀ t, (s₁.tasks t).state = (s.tasks t).state := by
    intro t
    by_cases ht : t = c
    · subst ht
      simp [s₁, Sched.modifyTask]
    · simp [s₁, Sched.modifyTask, Function.update_of_ne ht]
  have hwake := wakeUp_spec (s := s₁) h.waits.queues (t := c) (by
    intro blob hblob
    rw [hstate]
    exact (h.waiter_state hcpu hblob).2)
  have hcRunning : (s₁.tasks c).state = .running := by rw [hstate, hcpu c hc]
  have hcWoken : s₁.wokenTasks (w c) c = s₁.tasks c := by
    unfold Sched.wokenTasks
    rw [Task.wake_of_ne (by simp [hcRunning]), ite_self]
  have htransit : transitState { s₁ with tasks := s₁.wokenTasks (w c) } c .exiting =
      .ok { s with tasks := s.exitTasks c (w c) } := by
    have hcheck : transitionTable (s₁.wokenTasks (w c) c).state .exiting = true := by
      rw [hcWoken, hcRunning]
      rfl
    have htasks : Function.update (s₁.wokenTasks (w c)) c
        { s₁.wokenTasks (w c) c with state := .exiting } = s.exitTasks c (w c) := by
      funext t
      by_cases ht : t = c
      · subst ht
        rw [Function.update_self, hcWoken]
        simp [Sched.exitTasks, s₁, Sched.modifyTask]
      · rw [Function.update_of_ne ht, Sched.exitTasks, if_neg ht]
        simp [Sched.wokenTasks, s₁, Sched.modifyTask, Function.update_of_ne ht]
    simp only [transitState, check_true hcheck, ok_bind, pure_eq_ok, Sched.modifyTask, htasks]
    rfl
  show (do
    let s ← wakeUp s₁ c
    let s ← transitState s c .exiting
    userspaceTrapHandler s) = _
  rw [hwake, ok_bind, htransit, ok_bind]

/-- The invariant holds at the dispatch of an exit. -/
theorem Sched.Consistent.exit {s : Sched} {r b g : List TaskId} {w k : TaskId → List BlobId}
    (h : s.Consistent r b g w k) {c : TaskId} (hc : s.current = some c)
    (hpending : s.pending c = none) :
    Sched.Consistent { s with tasks := s.exitTasks c (w c) } r b g w k := by
  obtain ⟨hcr, hcb, -⟩ := h.current c hc
  have hself : s.exitTasks c (w c) c =
      { s.tasks c with waitStateExited := true, state := .exiting } := if_pos rfl
  have hother : ∀ t, t ≠ c → ∃ state, s.exitTasks c (w c) t = { s.tasks t with state } := by
    intro t ht
    rw [Sched.exitTasks, if_neg ht]
    exact s.wokenTasks_eq (w c) t
  have hkeeps : ∀ t, t ≠ c → (s.tasks t).state = .running →
      (s.exitTasks c (w c) t).state = .running := by
    intro t ht hst
    rw [Sched.exitTasks, if_neg ht, Sched.wokenTasks, Task.wake_of_ne (by simp [hst]), ite_self,
      hst]
  have hexited : ∀ t, t ≠ c →
      (s.exitTasks c (w c) t).waitStateExited = (s.tasks t).waitStateExited := by
    intro t ht
    obtain ⟨state, heq⟩ := hother t ht
    rw [heq]
  refine { queued := h.queued
           running := fun t ht => hkeeps t (fun heq => hcr (heq ▸ ht)) (h.running t ht)
           blocking := ?_
           current := ?_
           saved := h.saved
           savedIdle := h.savedIdle
           registered := h.registered
           waits := ⟨h.waits.queues, h.waits.lists, h.waits.of_queue, h.waits.of_list⟩
           held := ?_
           created := h.created
           awaited := h.awaited
           idle := h.idle
           waiting := ?_
           targets := h.targets }
  · intro t ht
    have htc : t ≠ c := fun heq => hcb (heq ▸ ht)
    show (s.exitTasks c (w c) t).state = .running ∨ (s.exitTasks c (w c) t).state = .interruptible
    rw [Sched.exitTasks, if_neg htc, Sched.wokenTasks]
    split
    next => exact Or.inl (Task.wake_state (h.blocking t ht))
    next => exact h.blocking t ht
  · intro d hd
    obtain rfl : c = d := Option.some.inj (hc.symm.trans hd)
    refine ⟨hcr, hcb, Or.inr (Or.inr ?_)⟩
    show (s.exitTasks c (w c) c).state = .exiting
    rw [hself]
  · intro t
    show t < s.nrTasks ∧ (s.exitTasks c (w c) t).waitStateExited = false ↔ t ∈ r ∨ t ∈ b ∨
      s.current = some t ∧ (s.exitTasks c (w c) t).state ≠ .exiting
    by_cases ht : t = c
    · subst ht
      simp [hself, hcr, hcb]
    · have hnot : s.current ≠ some t := fun hd => ht (Option.some.inj (hd.symm.trans hc))
      have hheld := h.held t
      simp only [hnot, false_and, or_false] at hheld ⊢
      rw [hexited t ht, hheld]
  · intro p hp
    have hpc : p ≠ c := fun heq => hp (heq ▸ hpending)
    show p < s.nrTasks ∧ (s.exitTasks c (w c) p).waitStateExited = false
    rw [hexited p hpc]
    exact h.waiting p hp

/-! ## Wait -/

/-- The state in which `call_wait4` yields. -/
def Sched.blocked (s : Sched) (c : TaskId) (wait : PendingWait) : Sched :=
  { s with
    tasks := Function.update s.tasks c { s.tasks c with state := .interruptible }
    pending := Function.update s.pending c (some wait) }

/-- The tasks that a scan waits for have been created. -/
theorem Sched.Consistent.awaited_scanned {s : Sched} {r b g : List TaskId}
    {w k : TaskId → List BlobId} (h : s.Consistent r b g w k) {c : TaskId}
    {pidHint options : Word} {d l : List TaskId} (hd : g = d ++ l) {s₁ : Sched}
    {w' k' : TaskId → List BlobId} (hscan : Scanned s c pidHint options k d s₁ w' k') :
    ∀ p, ∀ t ∈ s₁.awaited k' p, t < s.nrTasks := by
  intro p t ht
  rw [hscan.awaited] at ht
  by_cases hp : p = c
  · subst hp
    rw [Function.update_self, List.mem_append] at ht
    rcases ht with ht | ht
    · exact h.awaited p t ht
    · split at ht
      next => cases ht
      next => exact h.created t (by simp [hd, List.mem_of_mem_filter ht])
  · rw [Function.update_of_ne hp] at ht
    exact h.awaited p t ht

/-- A scan changes the wait blobs of its caller only. -/
theorem Scanned.list_eq_nil {s : Sched} {c : TaskId} {pidHint options : Word}
    {k : TaskId → List BlobId} {d : List TaskId} {s₁ : Sched} {w' k' : TaskId → List BlobId}
    (hscan : Scanned s c pidHint options k d s₁ w' k') {p : TaskId} (hp : p ≠ c)
    (hk : k p = []) : k' p = [] := by
  have := congrFun hscan.awaited p
  rw [Function.update_of_ne hp, Sched.awaited, Sched.awaited, hk, List.map_nil,
    List.map_eq_nil_iff] at this
  exact this

/-- The invariant holds at the dispatch of a wait that blocks. -/
theorem Sched.Consistent.block {s : Sched} {r b g : List TaskId} {w k : TaskId → List BlobId}
    (h : s.Consistent r b g w k) (hcpu : s.OnCpu) {c : TaskId} (hc : s.current = some c)
    (wait : PendingWait) (hwait : 0 < wait.ret.toInt → wait.target ≠ none) {d l : List TaskId}
    (hd : g = d ++ l) {s₁ : Sched} {w' k' : TaskId → List BlobId} {pidHint options : Word}
    (hscan : Scanned s c pidHint options k d s₁ w' k') :
    (s₁.blocked c wait).Consistent r b g w' k' := by
  have hawaited := h.awaited_scanned hd hscan
  have hwaits := hscan.waits
  have hnil : ∀ p, p ≠ c → k p = [] → k' p = [] := fun p hp => hscan.list_eq_nil hp
  obtain ⟨waitQueues, waitBlobs, blobs, nrBlobs, rfl⟩ := hscan.same
  obtain ⟨hcr, hcb, -⟩ := h.current c hc
  have hcLive := (h.held c).mpr (Or.inr (Or.inr ⟨hc, by simp [hcpu c hc]⟩))
  let tasks := Function.update s.tasks c { s.tasks c with state := .interruptible }
  have hother : ∀ t, t ≠ c → tasks t = s.tasks t := fun t ht => Function.update_of_ne ht _ _
  have hself : tasks c = { s.tasks c with state := .interruptible } := Function.update_self _ _ _
  have hexited : ∀ t, (tasks t).waitStateExited = (s.tasks t).waitStateExited := by
    intro t
    by_cases ht : t = c
    · rw [ht, hself]
    · rw [hother t ht]
  refine { queued := h.queued
           running := ?_
           blocking := ?_
           current := ?_
           saved := h.saved
           savedIdle := h.savedIdle
           registered := h.registered
           waits := ⟨hwaits.queues, hwaits.lists, hwaits.of_queue, hwaits.of_list⟩
           held := ?_
           created := h.created
           awaited := hawaited
           idle := ?_
           waiting := ?_
           targets := ?_ }
  · intro t ht
    show (tasks t).state = .running
    rw [hother t fun heq => hcr (heq ▸ ht)]
    exact h.running t ht
  · intro t ht
    show (tasks t).state = .running ∨ (tasks t).state = .interruptible
    rw [hother t fun heq => hcb (heq ▸ ht)]
    exact h.blocking t ht
  · intro e he
    obtain rfl : c = e := Option.some.inj (hc.symm.trans he)
    refine ⟨hcr, hcb, Or.inr (Or.inl ?_)⟩
    show (tasks c).state = .interruptible
    rw [hself]
  · intro t
    show t < s.nrTasks ∧ (tasks t).waitStateExited = false ↔ t ∈ r ∨ t ∈ b ∨
      s.current = some t ∧ (tasks t).state ≠ .exiting
    rw [hexited, h.held t]
    by_cases ht : t = c
    · subst ht
      simp [hself, hcpu t hc]
    · rw [hother t ht]
  · intro p hp
    by_cases hpc : p = c
    · subst hpc
      simp [Sched.blocked] at hp
    · refine hnil p hpc (h.idle p ?_)
      simpa [Sched.blocked, Function.update_of_ne hpc] using hp
  · intro p hp
    show p < s.nrTasks ∧ (tasks p).waitStateExited = false
    rw [hexited]
    by_cases hpc : p = c
    · rw [hpc]
      exact hcLive
    · refine h.waiting p ?_
      simpa [Sched.blocked, Function.update_of_ne hpc] using hp
  · intro p wait' hp
    by_cases hpc : p = c
    · subst hpc
      obtain rfl : wait = wait' := by simpa [Sched.blocked] using hp
      exact hwait
    · refine h.targets p wait' ?_
      simpa [Sched.blocked, Function.update_of_ne hpc] using hp

/-- The invariant holds behind the end of a wait. -/
theorem Sched.Consistent.finish {s : Sched} {r b g : List TaskId} {w k : TaskId → List BlobId}
    (h : s.Consistent r b g w k) (c : TaskId) {ret : Word} {target : Option TaskId}
    (options : Word) (hret : 0 < ret.toInt → target ≠ none) :
    ∃ globalTasks waitQueues waitBlobs w',
      finishWait4 { s with pending := Function.update s.pending c none } c ret target options =
        .ok (((k c).foldl (s.choose options) (ret, target)).1, { s with
          pending := Function.update s.pending c none, globalTasks, waitQueues, waitBlobs }) ∧
      Sched.Consistent { s with
        pending := Function.update s.pending c none, globalTasks, waitQueues, waitBlobs }
        r b (reapedList g ((k c).foldl (s.choose options) (ret, target))) w'
        (Function.update k c []) := by
  obtain ⟨globalTasks, waitQueues, waitBlobs, w', hrun, hg', hwaits⟩ :=
    finishWait4_spec (s := { s with pending := Function.update s.pending c none }) h.registered
      ⟨h.waits.queues, h.waits.lists, h.waits.of_queue, h.waits.of_list⟩ c options hret
  have hsub := reapedList_sublist g ((k c).foldl (s.choose options) (ret, target))
  refine ⟨globalTasks, waitQueues, waitBlobs, w', hrun, ?_⟩
  have hpending : ∀ p, Function.update s.pending c none p ≠ none →
      p ≠ c ∧ Function.update s.pending c none p = s.pending p := by
    intro p hp
    by_cases hpc : p = c
    · rw [hpc, Function.update_self] at hp
      exact absurd rfl hp
    · exact ⟨hpc, Function.update_of_ne hpc _ _⟩
  refine { queued := h.queued
           running := h.running
           blocking := h.blocking
           current := h.current
           saved := h.saved
           savedIdle := h.savedIdle
           registered := hg'
           waits := hwaits
           held := h.held
           created := fun t ht => h.created t (hsub.subset ht)
           awaited := ?_
           idle := ?_
           waiting := ?_
           targets := ?_ }
  · intro p t ht
    refine h.awaited p t ?_
    by_cases hpc : p = c
    · simp [Sched.awaited, hpc] at ht
    · simpa [Sched.awaited, Function.update_of_ne hpc] using ht
  · intro p hp
    by_cases hpc : p = c
    · rw [hpc, Function.update_self]
    · rw [Function.update_of_ne hpc]
      refine h.idle p ?_
      simpa [Function.update_of_ne hpc] using hp
  · intro p hp
    obtain ⟨-, heq⟩ := hpending p hp
    exact h.waiting p (heq ▸ hp)
  · intro p wait hp
    have hp' : Function.update s.pending c none p = some wait := hp
    obtain ⟨-, heq⟩ := hpending p (by rw [hp']; exact Option.some_ne_none wait)
    exact h.targets p wait (heq ▸ hp')

/-- A scan that queued no wait blob keeps the invariant. -/
theorem Sched.Consistent.scanned {s : Sched} {r b g : List TaskId} {w k : TaskId → List BlobId}
    (h : s.Consistent r b g w k) {c : TaskId} {pidHint options : Word} {d l : List TaskId}
    (hd : g = d ++ l) {s₁ : Sched} {w' k' : TaskId → List BlobId}
    (hscan : Scanned s c pidHint options k d s₁ w' k') (hempty : k' c = []) :
    s₁.Consistent r b g w' k' := by
  have hawaited := h.awaited_scanned hd hscan
  have hwaits := hscan.waits
  have hidle : ∀ p, s.pending p = none → k' p = [] := by
    intro p hp
    by_cases hpc : p = c
    · rw [hpc, hempty]
    · exact hscan.list_eq_nil hpc (h.idle p hp)
  obtain ⟨waitQueues, waitBlobs, blobs, nrBlobs, rfl⟩ := hscan.same
  exact
    { queued := h.queued
      running := h.running
      blocking := h.blocking
      current := h.current
      saved := h.saved
      savedIdle := h.savedIdle
      registered := h.registered
      waits := hwaits
      held := h.held
      created := h.created
      awaited := hawaited
      idle := hidle
      waiting := h.waiting
      targets := h.targets }

/-- What a call of `wait4` does: it scans the task list, and then it blocks if it
queued a wait blob, and else returns what the scan found. -/
theorem Sched.Consistent.callWait4 {s : Sched} {r b g : List TaskId}
    {w k : TaskId → List BlobId} (h : s.Consistent r b g w k) {c : TaskId}
    (hcpu : (s.tasks c).state = .running) (hpending : s.pending c = none)
    (pidHint options : Word) :
    ∃ d l s₁ w' k' ret target, g = d ++ l ∧ Scanned s c pidHint options k d s₁ w' k' ∧
      s.StopsAt c pidHint l ret target ∧
      (k' c ≠ [] → Hyrule.callWait4 s c pidHint options = (do
        return (none, ← userspaceTrapHandler (s₁.blocked c ⟨ret, target, pidHint, options⟩)))) ∧
      (k' c = [] → ∃ globalTasks waitQueues waitBlobs w'',
        Hyrule.callWait4 s c pidHint options =
          .ok (some ret, { s₁ with globalTasks, waitQueues, waitBlobs }) ∧
        Sched.Consistent { s₁ with globalTasks, waitQueues, waitBlobs } r b
          (reapedList g (ret, target)) w'' k') := by
  let s₀ : Sched := { s with waitBlobs := s.waitBlobs.initHead c }
  have hwaits₀ : s₀.WaitLists w k :=
    ⟨h.waits.queues, h.waits.lists.initHead (h.idle c hpending), h.waits.of_queue,
      h.waits.of_list⟩
  obtain ⟨s₁, ret, target, hrun, d, l, w', k', hd, hscan₀, hfound⟩ :=
    scanTasks_spec (s := s₀) h.registered hwaits₀ c pidHint options
  have hscan : Scanned s c pidHint options k d s₁ w' k' :=
    ⟨hscan₀.live, Sched.SameButWaits.trans ⟨_, _, _, _, rfl⟩ hscan₀.same, hscan₀.waits,
      hscan₀.awaited⟩
  have htarget : 0 < ret.toInt → target ≠ none := hfound.target_ne_none
  have hfirst : s₁.waitBlobs.headNext c = (k' c).head? := hscan.waits.lists.first c
  have hcall : Hyrule.callWait4 s c pidHint options =
      if s₁.waitBlobs.headNext c ≠ none then do
        let s ← transitState s₁ c .interruptible
        let pending := Function.update s.pending c (some ⟨ret, target, pidHint, options⟩)
        return (none, ← userspaceTrapHandler { s with pending })
      else do
        let r ← finishWait4 s₁ c ret target options
        return (some r.1, r.2) := by
    change listForeach _ (scanTask c pidHint options) s₀.globalTasks.appended _ _ >>= _ = _
    rw [hrun]
    rfl
  have hkept : (s₁.tasks c).state = .running ∧ s₁.pending = s.pending := by
    obtain ⟨_, _, _, _, rfl⟩ := hscan.same
    exact ⟨hcpu, rfl⟩
  refine ⟨d, l, s₁, w', k', ret, target, hd, hscan, hfound, ?_, ?_⟩
  · intro hqueued
    have hhead : s₁.waitBlobs.headNext c ≠ none := by
      rw [hfirst, Ne, List.head?_eq_none_iff]
      exact hqueued
    have htransit : transitState s₁ c .interruptible = .ok (s₁.modifyTask c fun task =>
        { task with state := .interruptible }) := by
      have hcheck : transitionTable (s₁.tasks c).state .interruptible = true := by
        rw [hkept.1]
        rfl
      simp only [transitState, check_true hcheck, ok_bind, pure_eq_ok]
    rw [hcall]
    simp only [hhead, ne_eq, not_false_eq_true, if_true, htransit, ok_bind]
    rfl
  · intro hempty
    have hhead : s₁.waitBlobs.headNext c = none := by rw [hfirst, hempty]; rfl
    have hsame : { s₁ with pending := Function.update s₁.pending c none } = s₁ := by
      rw [hkept.2, ← hpending, Function.update_eq_self, ← hkept.2]
    obtain ⟨globalTasks, waitQueues, waitBlobs, w'', hfinish, hcons⟩ :=
      (h.scanned hd hscan hempty).finish c options htarget
    have hupdate : Function.update s₁.pending c none = s₁.pending := by
      rw [hkept.2, ← hpending, Function.update_eq_self]
    rw [hsame, hupdate, hempty, List.foldl_nil] at hfinish
    rw [hupdate, hempty, List.foldl_nil, ← hempty, Function.update_eq_self] at hcons
    refine ⟨globalTasks, waitQueues, waitBlobs, w'', ?_, hcons⟩
    rw [hcall]
    simp only [hhead, ne_eq, not_true_eq_false, if_false, hfinish, ok_bind, pure_eq_ok]

/-! ## Runs -/

/-- The start-up of `main` leaves the first task in the running list, and no task
waits. -/
theorem boot_spec : ∃ s, boot = .ok s ∧ s.Settled ∧ ∀ p, s.pending p = none := by
  have hempty : ∀ (η ν : Type), (ListHeap.empty : ListHeap η ν).Represents fun _ => [] :=
    fun _ _ => ListHeap.represents_empty
  obtain ⟨globalTasks, hregister, hg⟩ :=
    (hempty Unit TaskId).append () (fun _ => List.not_mem_nil (a := 0))
  obtain ⟨queues, hschedule, hq⟩ :=
    (hempty Queue TaskId).append .running (fun _ => List.not_mem_nil (a := 0))
  let first : Task := { Task.blank with pid := 1, ppid := 1, tgid := 1, state := .running }
  let s : Sched :=
    { tasks := Function.update (fun _ => Task.blank) 0 first
      nrTasks := 1
      gpidCounter := 2
      current := none
      hostCpustate := Function.update (fun _ => false) (some 0) true
      queues
      globalTasks
      waitQueues := .empty
      waitBlobs := .empty
      blobs := fun _ => ⟨0, 0⟩
      nrBlobs := 0
      pending := fun _ => none }
  have hfirst : s.tasks 0 = first := by simp [s]
  have hlists : Function.update (fun _ => []) Queue.running ([] ++ [0]) = queueLists [0] [] [] := by
    funext queue
    cases queue <;> rfl
  rw [hlists] at hq
  have hconst : Function.update (fun _ : Unit => []) () ([] ++ [0]) =
      (fun _ => [0] : Unit → List TaskId) := rfl
  rw [hconst] at hg
  have hsaved : s.hostCpustate (some 0) = true := by simp [s]
  have hcpu : s.OnCpu := fun c hc => absurd hc (Option.some_ne_none c).symm
  refine ⟨s, ?_, ⟨hcpu, [0], [], [0], fun _ => [], fun _ => [], ?_⟩, fun _ => rfl⟩
  · have hsame : Function.update (Function.update (fun _ => Task.blank) 0 first) 0 first =
        Function.update (fun _ => Task.blank) 0 first := Function.update_idem _ _ _
    simp only [boot, registerTask, hregister, ok_bind, pure_eq_ok, transitState,
      Function.update_self, transitionTable, check_true, Sched.modifyTask, scheduleTask, queueOf,
      hschedule]
    exact congrArg (fun tasks => Except.ok { s with tasks }) hsame
  exact
    { queued := hq
      running := fun t ht => by rw [List.mem_singleton.mp ht, hfirst]
      blocking := fun t ht => by cases ht
      current := fun c hc => absurd hc (Option.some_ne_none c).symm
      saved := fun t ht => by
        rw [List.append_nil, List.mem_singleton] at ht
        rw [ht, hsaved]
      savedIdle := Or.inl rfl
      registered := hg
      waits := ⟨hempty _ _, hempty _ _, fun _ _ hblob => absurd hblob List.not_mem_nil,
        fun _ _ hblob => absurd hblob List.not_mem_nil⟩
      held := fun t => by
        show t < 1 ∧ (s.tasks t).waitStateExited = false ↔ t ∈ [0] ∨ t ∈ [] ∨ none = some t ∧ _
        by_cases ht : t = 0
        · subst ht
          simp [hfirst, first, Task.blank]
        · simp [ht]
      created := fun t ht => by
        rw [List.mem_singleton.mp ht]
        exact Nat.one_pos
      awaited := fun p t ht => by cases ht
      idle := fun p _ => rfl
      waiting := fun p hp => absurd rfl hp
      targets := fun p wait hp => absurd hp (Option.some_ne_none wait).symm }

/-- No step takes back the exit of a task. -/
def Sched.KeepsExited (s s' : Sched) : Prop :=
  ∀ t, t < s.nrTasks ∧ (s.tasks t).waitStateExited = true →
    t < s'.nrTasks ∧ (s'.tasks t).waitStateExited = true

/-- The steps of the system, by what they are made of. -/
theorem Sched.perform_cases {s : Sched} {action : TaskAction} {res : Result Sched}
    (h : s.perform action = some res) :
    (action = .yield ∧ res = userspaceTrapHandler s) ∨
    ∃ c, s.current = some c ∧
      ((∃ flags, action = .clone flags ∧ s.pending c = none ∧ res = cloneTask s c flags) ∨
      (∃ pidHint options, action = .wait4 pidHint options ∧ s.pending c = none ∧
        res = do return (← callWait4 s c pidHint options).2) ∨
      (action = .exit ∧ s.pending c = none ∧ res = doExit s c) ∨
      (∃ wait, action = .resume ∧ s.pending c = some wait ∧
        res = do return (← resumeWait4 s c wait).2)) := by
  unfold Sched.perform at h
  rcases Option.eq_none_or_eq_some s.current with hc | ⟨c, hc⟩
  · simp only [hc] at h
    split at h
    next hyield => exact Or.inl ⟨hyield, (Option.some.inj h).symm⟩
    next => cases h
  · rcases Option.eq_none_or_eq_some (s.pending c) with hp | ⟨wait, hp⟩
    · simp only [hc, hp] at h
      cases action with
      | clone flags =>
        exact Or.inr ⟨c, hc, Or.inl ⟨flags, rfl, hp, (Option.some.inj h).symm⟩⟩
      | wait4 pidHint options =>
        exact Or.inr ⟨c, hc, Or.inr (Or.inl ⟨pidHint, options, rfl, hp, (Option.some.inj h).symm⟩)⟩
      | exit => exact Or.inr ⟨c, hc, Or.inr (Or.inr (Or.inl ⟨rfl, hp, (Option.some.inj h).symm⟩))⟩
      | yield => exact Or.inl ⟨rfl, (Option.some.inj h).symm⟩
      | resume => cases h
    · simp only [hc, hp] at h
      cases action with
      | resume =>
        exact Or.inr ⟨c, hc, Or.inr (Or.inr (Or.inr ⟨wait, rfl, hp, (Option.some.inj h).symm⟩))⟩
      | _ => cases h

theorem Sched.Consistent.settled_dispatch {s : Sched} {r b g : List TaskId}
    {w k : TaskId → List BlobId} (h : s.Consistent r b g w k) :
    ∃ s', userspaceTrapHandler s = .ok s' ∧ s'.Settled ∧ s.KeepsExited s' := by
  obtain ⟨queues, hrun, hcpu, hcons⟩ := h.dispatch
  exact ⟨_, hrun, ⟨hcpu, _, _, _, _, _, hcons⟩, fun _ ht => ht⟩

/-- Every step that a task can make returns, and keeps the invariant. -/
theorem Sched.Settled.perform {s : Sched} (h : s.Settled) {action : TaskAction}
    {res : Result Sched} (hstep : s.perform action = some res) :
    ∃ s', res = .ok s' ∧ s'.Settled ∧ s.KeepsExited s' := by
  obtain ⟨hcpu, r, b, g, w, k, hcons⟩ := h
  rcases Sched.perform_cases hstep with ⟨-, rfl⟩ | ⟨c, hc, ⟨flags, -, -, rfl⟩ |
    ⟨pidHint, options, -, hp, rfl⟩ | ⟨-, hp, rfl⟩ | ⟨wait, -, hp, rfl⟩⟩
  · exact hcons.settled_dispatch
  · obtain ⟨queues, globalTasks, waitQueues, hrun, hcpu', hcons'⟩ := hcons.clone hcpu c flags
    refine ⟨_, hrun, ⟨hcpu', _, _, _, _, _, hcons'⟩, ?_⟩
    rintro t ⟨hlt, hexit⟩
    refine ⟨Nat.lt_succ_of_lt hlt, ?_⟩
    show (Function.update s.tasks s.nrTasks (childTask s c flags) t).waitStateExited = true
    rwa [Function.update_of_ne (Nat.ne_of_lt hlt)]
  · obtain ⟨d, l, s₁, w', k', ret, target, hd, hscan, hfound, hblock, hreturn⟩ :=
      hcons.callWait4 (hcpu c hc) hp pidHint options
    by_cases hqueued : k' c = []
    · obtain ⟨globalTasks, waitQueues, waitBlobs, w'', hrun, hcons'⟩ := hreturn hqueued
      obtain ⟨_, _, _, _, rfl⟩ := hscan.same
      exact ⟨_, bind_eq_ok.mpr ⟨_, hrun, rfl⟩, ⟨hcpu, _, _, _, _, _, hcons'⟩, fun _ ht => ht⟩
    · obtain ⟨s', hrun, hsettled, hkeeps⟩ := (hcons.block hcpu hc
        ⟨ret, target, pidHint, options⟩ hfound.target_ne_none hd hscan).settled_dispatch
      refine ⟨s', by rw [hblock hqueued, hrun]; rfl, hsettled, fun t ht => hkeeps t ?_⟩
      obtain ⟨_, _, _, _, rfl⟩ := hscan.same
      refine ⟨ht.1, ?_⟩
      show (Function.update s.tasks c { s.tasks c with state := .interruptible } t).waitStateExited
        = true
      by_cases htc : t = c
      · rw [htc, Function.update_self, ← htc]
        exact ht.2
      · rw [Function.update_of_ne htc]
        exact ht.2
  · obtain ⟨s', hrun, hsettled, hkeeps⟩ := (hcons.exit hc hp).settled_dispatch
    refine ⟨s', by rw [hcons.doExit_eq hcpu hc, hrun], hsettled, fun t ht => hkeeps t ⟨ht.1, ?_⟩⟩
    show (s.exitTasks c (w c) t).waitStateExited = true
    unfold Sched.exitTasks
    split
    next => rfl
    next =>
      obtain ⟨state, heq⟩ := s.wokenTasks_eq (w c) t
      rw [heq]
      exact ht.2
  · obtain ⟨globalTasks, waitQueues, waitBlobs, w', hrun, hcons'⟩ :=
      hcons.finish c wait.options (hcons.targets c wait hp)
    exact ⟨_, bind_eq_ok.mpr ⟨_, hrun, rfl⟩, ⟨hcpu, _, _, _, _, _, hcons'⟩, fun _ ht => ht⟩

theorem Sched.settled_of_reachable {s : Sched} (h : schedRuns.Reachable s) : s.Settled := by
  refine h.invariant ?_ ?_
  · intro s₀ hboot
    obtain ⟨s₁, hrun, hsettled, -⟩ := boot_spec
    obtain rfl : s₁ = s₀ := Except.ok.inj (hrun.symm.trans hboot)
    exact hsettled
  · intro s₁ action s₂ hsettled hstep
    obtain ⟨s', hs', hsettled', -⟩ := hsettled.perform hstep
    rwa [Except.ok.inj hs']

/-- The task that exits is marked as exited. -/
theorem Sched.Settled.exit_marks {s s' : Sched} (h : s.Settled) {c : TaskId}
    (hc : s.current = some c) (hstep : s.perform .exit = some (.ok s')) :
    c < s'.nrTasks ∧ (s'.tasks c).waitStateExited = true := by
  obtain ⟨hcpu, r, b, g, w, k, hcons⟩ := h
  rcases Sched.perform_cases hstep with ⟨hyield, -⟩ | ⟨d, hd, ⟨_, hclone, -⟩ | ⟨_, _, hwait, -⟩ |
    ⟨-, hp, hrun⟩ | ⟨_, hresume, -⟩⟩
  · cases hyield
  · cases hclone
  · cases hwait
  · obtain rfl : c = d := Option.some.inj (hc.symm.trans hd)
    obtain ⟨s'', hrun', -, hkeeps⟩ := (hcons.exit hc hp).settled_dispatch
    rw [hcons.doExit_eq hcpu hc, hrun'] at hrun
    obtain rfl : s' = s'' := Except.ok.inj hrun
    have hlive := (hcons.held c).mpr (Or.inr (Or.inr ⟨hc, by simp [hcpu c hc]⟩))
    exact hkeeps c ⟨hlive.1, by simp [Sched.exitTasks]⟩
  · cases hresume

/-- No run takes back the exit of a task. -/
theorem Sched.Settled.keepsExited {s s' : Sched} (h : s.Settled)
    (hreach : (schedRuns.startAt s).Reachable s') : s.KeepsExited s' := by
  have hinv : s'.Settled ∧ s.KeepsExited s' := by
    refine hreach.invariant (P := fun x => x.Settled ∧ s.KeepsExited x) ?_ ?_
    · rintro s₁ rfl
      exact ⟨h, fun _ ht => ht⟩
    · rintro s₁ action s₂ ⟨hsettled, hkeeps⟩ hstep
      obtain ⟨s'', hs'', hsettled', hkeeps'⟩ := hsettled.perform hstep
      obtain rfl : s₂ = s'' := Except.ok.inj hs''
      exact ⟨hsettled', fun t ht => hkeeps' t (hkeeps t ht)⟩
  exact hinv.2

/-! ## Safety -/

/-- In how many places a task is held: on the processor, in the running list and
in the blocking list. -/
def Sched.holders (s : Sched) (t : TaskId) : Nat :=
  s.current.toList.count t + (s.queues.toList .running).count t +
    (s.queues.toList .blocking).count t

theorem Sched.Consistent.holders {s : Sched} {r b g : List TaskId} {w k : TaskId → List BlobId}
    (h : s.Consistent r b g w k) (hcpu : s.OnCpu) (t : TaskId) :
    s.holders t = if t < s.nrTasks ∧ (s.tasks t).waitStateExited = false then 1 else 0 := by
  have hr : s.queues.toList .running = r := h.queued.toList .running
  have hb : s.queues.toList .blocking = b := h.queued.toList .blocking
  have hrb : t ∈ r → t ∉ b := fun htr htb => by
    cases h.queued.apart .running .blocking t htr htb
  have hcount : s.current.toList.count t = if s.current = some t then 1 else 0 := by
    rcases Option.eq_none_or_eq_some s.current with hc | ⟨c, hc⟩
    · simp [hc]
    · simp [hc, List.count_singleton]
  have hcurrent : s.current = some t → t ∉ r ∧ t ∉ b ∧ (s.tasks t).state ≠ .exiting :=
    fun hc => ⟨(h.current t hc).1, (h.current t hc).2.1, by simp [hcpu t hc]⟩
  have hnodupRunning : r.Nodup := h.queued.nodup .running
  have hnodupBlocking : b.Nodup := h.queued.nodup .blocking
  rw [Sched.holders, hr, hb, hcount, hnodupRunning.count, hnodupBlocking.count]
  simp only [h.held t]
  by_cases hc : s.current = some t
  · obtain ⟨htr, htb, hst⟩ := hcurrent hc
    simp [hc, htr, htb, hst]
  · by_cases htr : t ∈ r
    · simp [hc, htr, hrb htr]
    · by_cases htb : t ∈ b
      · simp [hc, htr, htb]
      · simp [hc, htr, htb]

/-- Scheduler safety.  The start-up returns, and in every state of every run: every
step that a task can make returns; every live task is held in exactly one place,
and is in the state `TASK_STATE_RUNNING` if that is the running list; and the task
that exits is never current again. -/
theorem scheduler_safe {s : Sched} (h : schedRuns.Reachable s) :
    (∃ s₀, boot = .ok s₀) ∧
    (∀ action res, s.perform action = some res → ∃ s', res = .ok s') ∧
    (∀ t, t < s.nrTasks → (s.tasks t).waitStateExited = false →
      s.holders t = 1 ∧ (t ∈ s.queues.toList .running → (s.tasks t).state = .running)) ∧
    (∀ t s', s.current = some t → s.perform .exit = some (.ok s') →
      ∀ s'', (schedRuns.startAt s').Reachable s'' → s''.current ≠ some t) := by
  have hsettled := Sched.settled_of_reachable h
  obtain ⟨hcpu, r, b, g, w, k, hcons⟩ := id hsettled
  refine ⟨?_, ?_, ?_, ?_⟩
  · obtain ⟨s₀, hboot, -⟩ := boot_spec
    exact ⟨s₀, hboot⟩
  · intro action res hstep
    obtain ⟨s', hres, -⟩ := hsettled.perform hstep
    exact ⟨s', hres⟩
  · intro t hlt hlive
    refine ⟨by rw [hcons.holders hcpu, if_pos ⟨hlt, hlive⟩], fun ht => hcons.running t ?_⟩
    rwa [hcons.queued.toList .running] at ht
  · intro t s' hc hstep s'' hreach
    -- The exit sets the flag, no later step clears it, and no flagged task is current.
    have hsettled' := Sched.settled_of_reachable (h.step hstep)
    have hflag := hsettled'.keepsExited hreach t (hsettled.exit_marks hc hstep)
    intro hc''
    obtain ⟨hcpu'', r'', b'', g'', w'', k'', hcons''⟩ :=
      Sched.settled_of_reachable ((h.step hstep).of_startAt hreach)
    have := (hcons''.held t).mpr (Or.inr (Or.inr ⟨hc'', by simp [hcpu'' t hc'']⟩))
    rw [hflag.2] at this
    cases this.2

/-- The first task clones another and waits for it: the child is current, and the
parent is in the blocking list. -/
theorem scheduler_safe_waiting_parent :
    ∃ s, schedRuns.Reachable s ∧ s.current = some 1 ∧ (s.tasks 0).state = .interruptible ∧
      s.holders 0 = 1 ∧ ∀ action res, s.perform action = some res → ∃ s', res = .ok s' := by
  have hrun : (schedRun [.yield, .clone 0, .wait4 (-1) 0]).map (fun s =>
      (s.nrTasks, s.current, (s.tasks 0).state, (s.tasks 0).waitStateExited)) =
        some (2, some 1, .interruptible, false) := by
    decide +kernel
  obtain ⟨s, hs, hview⟩ := Option.map_eq_some_iff.mp hrun
  obtain ⟨hnr, hcurrent, hstate, hexited⟩ :
      s.nrTasks = 2 ∧ s.current = some 1 ∧ (s.tasks 0).state = .interruptible ∧
        (s.tasks 0).waitStateExited = false := by
    simpa using hview
  have hreach := reachable_of_schedRun hs
  obtain ⟨-, hsafe, hheld, -⟩ := scheduler_safe hreach
  exact ⟨s, hreach, hcurrent, hstate, (hheld 0 (by omega) hexited).1, hsafe⟩

end Hyrule
