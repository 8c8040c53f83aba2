import Hyrule.Lib.Transition
import Hyrule.Sched.Scheduler

/-!
# Clone, wait and exit

`wait_queue.c` and the functions of `task.c` that create tasks, wait for them and
end them, as far as they act on the scheduler.  `call_wait4` scans the global
task list for children, queues an entry in the wait queue of each live one, and
blocks if it queued any.  A child that exits wakes the tasks in its wait queue.
When the caller runs again it removes its entries and reaps an exited child.

A call that blocks ends a step of the system: its two halves are `callWait4` and
`resumeWait4`.  `schedRuns` are the runs of the whole: any task that is current
may clone, wait, exit or yield, in any order.
-/

namespace Hyrule

open Lib Lib.Result

/-! ## Wait queues -/

/-- `raw_task_wake_up`. -/
def rawTaskWakeUp (s : Sched) (t : TaskId) : Result Sched := do
  match (s.tasks t).state with
  | .running => return s
  | .interruptible => transitState s t .running
  | .uninterruptible =>
      check ((s.tasks t).nonStopState = .running ∨ (s.tasks t).nonStopState = .interruptible)
      return s.modifyTask t fun task => { task with nonStopState := .running }
  | _ => throw .assertion

/-- `wake_up` of a task's wait queue. -/
def wakeUp (s : Sched) (t : TaskId) : Result Sched :=
  listForeach (fun s blob => s.waitQueues.next blob)
    (fun blob s => return (← rawTaskWakeUp s (s.blobs blob).task, false))
    s.waitQueues.appended (s.waitQueues.headNext t) s

/-- `add_wait_queue_entry`. -/
def addWaitQueueEntry (s : Sched) (t : TaskId) (blob : BlobId) : Result Sched := do
  if ← elementInList s.waitQueues t blob then return s
  else return { s with waitQueues := ← listAppend s.waitQueues t blob }

/-- `remove_wait_queue_entry`. -/
def removeWaitQueueEntry (s : Sched) (t : TaskId) (blob : BlobId) : Result Sched := do
  if ← elementInList s.waitQueues t blob then
    return { s with waitQueues := ← listDelete s.waitQueues t blob }
  else return s

/-! ## The global task list -/

/-- `register_task`. -/
def registerTask (s : Sched) (t : TaskId) : Result Sched := do
  return { s with globalTasks := ← listAppend s.globalTasks () t }

/-- `unregister_task`. -/
def unregisterTask (s : Sched) (t : TaskId) : Result Sched := do
  if ← elementInList s.globalTasks () t then
    return { s with globalTasks := ← listDelete s.globalTasks () t }
  else return s

/-- The fields of a task that is not yet created. -/
def Task.blank : Task := ⟨0, 0, 0, none, .zombie, .zombie, false, false, false⟩

/-- `main` up to the idle task: the first task is registered and queued. -/
def boot : Result Sched := do
  let first : Task := { Task.blank with pid := 1, ppid := 1, tgid := 1, state := .running }
  let s : Sched :=
    { tasks := Function.update (fun _ => Task.blank) 0 first
      nrTasks := 1
      gpidCounter := 2
      current := none
      hostCpustate := fun _ => false
      queues := .empty
      globalTasks := .empty
      waitQueues := .empty
      waitBlobs := .empty
      blobs := fun _ => ⟨0, 0⟩
      nrBlobs := 0
      pending := fun _ => none }
  let s ← registerTask s 0
  let s ← transitState s 0 .running
  scheduleTask { s with hostCpustate := Function.update s.hostCpustate (some 0) true } 0

/-- The fields that `task_linkage_init` and `hart_init` give a child. -/
def childTask (s : Sched) (c : TaskId) (flags : Word) : Task :=
  { Task.blank with
    pid := s.gpidCounter
    ppid := (s.tasks c).pid
    tgid := if flags &&& cloneThread ≠ 0 then (s.tasks c).pid else s.gpidCounter
    parent := some c
    state := .running }

/-- `clone_task` by a task, as far as it acts on the scheduler. -/
def cloneTask (s : Sched) (c : TaskId) (flags : Word) : Result Sched := do
  let child := s.nrTasks
  let s : Sched :=
    { s with
      tasks := Function.update s.tasks child (childTask s c flags)
      nrTasks := s.nrTasks + 1
      gpidCounter := s.gpidCounter + 1
      queues := s.queues.initNode child
      globalTasks := s.globalTasks.initNode child
      waitQueues := s.waitQueues.initHead child }
  let s ← registerTask s child
  scheduleTask { s with hostCpustate := Function.update s.hostCpustate (some child) true } child

/-! ## Exit -/

/-- `do_exit` by a task. -/
def doExit (s : Sched) (c : TaskId) : Result Sched := do
  let s := s.modifyTask c fun task => { task with waitStateExited := true }
  let s ← wakeUp s c
  let s ← transitState s c .exiting
  userspaceTrapHandler s

/-! ## Wait -/

/-- `WNOHANG_MASK` is set. -/
def noHang (options : Word) : Bool := options &&& 1 ≠ 0

/-- `WUNTRACED_MASK` is set. -/
def untraced (options : Word) : Bool := options &&& 2 ≠ 0

/-- The task `child` is one that `vm` waits for, given the hint. -/
def isToWait (vm child : Task) (pidHint : Word) : Bool :=
  if vm.pid ≠ child.ppid ∨ vm.pid = child.pid then false
  else if pidHint = -1 then vm.pid = child.ppid
  else if pidHint.toInt < -1 then child.tgid = -pidHint
  else if pidHint = 0 then child.tgid = vm.pid
  else child.pid = pidHint

/-- The state with `ret` and `target_vm` of `call_wait4`. -/
abbrev WaitState := Sched × Word × Option TaskId

/-- A new `wait_blob` of `c` for the task `t`, in the list of `c` and in the wait
queue of `t`. -/
def queueWaitBlob (s : Sched) (c t : TaskId) : Result Sched := do
  let blob := s.nrBlobs
  let s : Sched :=
    { s with
      blobs := Function.update s.blobs blob ⟨t, c⟩
      nrBlobs := s.nrBlobs + 1
      waitQueues := s.waitQueues.initNode blob
      waitBlobs := s.waitBlobs.initNode blob }
  let waitBlobs ← listAppend s.waitBlobs c blob
  addWaitQueueEntry { s with waitBlobs } t blob

/-- The body of the loop of `call_wait4` over the global task list. -/
def scanTask (c : TaskId) (pidHint options : Word) (t : TaskId) :
    WaitState → Result (WaitState × Bool)
  | (s, ret, target) =>
      if isToWait (s.tasks c) (s.tasks t) pidHint = false then return ((s, ret, target), false)
      else if (s.tasks t).waitStateExited then return ((s, (s.tasks t).pid, some t), true)
      else if noHang options then return ((s, 0, target), false)
      else do return ((← queueWaitBlob s c t, 0, target), false)

/-- `list_fetch` of the caller's list of wait blobs. -/
def fetchWaitBlob (c : TaskId) : WaitState → Result (Option BlobId × WaitState)
  | (s, ret, target) => do
      let (elem, waitBlobs) ← listFetch s.waitBlobs c
      return (elem, { s with waitBlobs }, ret, target)

/-- The body of the loop of `call_wait4` over the wait blobs. -/
def releaseWaitBlob (options : Word) (blob : BlobId) : WaitState → Result (WaitState × Bool)
  | (s, ret, target) => do
      let vm := (s.blobs blob).vm
      let task := s.tasks vm
      let changed := task.waitStateExited ||
        untraced options && (task.waitStateContinued || task.waitStateStopped)
      let s ← removeWaitQueueEntry s vm blob
      if ret.toInt ≤ 0 ∧ changed then return ((s, task.pid, some vm), false)
      else return ((s, ret, target), false)

/-- `call_wait4` behind the loop over the task list, or behind its `yield_cpu`. -/
def finishWait4 (s : Sched) (c : TaskId) (ret : Word) (target : Option TaskId) (options : Word) :
    Result (Word × Sched) := do
  let (s, ret, target) ← whileFetch (fetchWaitBlob c) (releaseWaitBlob options)
    (s.waitBlobs.appended + 1) (s, ret, target)
  if 0 < ret.toInt then
    match target with
    | none => throw .assertion
    | some t => return (ret, ← unregisterTask s t)
  else return (ret, s)

/-- `call_wait4` by a task: what it returns, or nothing if it blocks. -/
def callWait4 (s : Sched) (c : TaskId) (pidHint options : Word) :
    Result (Option Word × Sched) := do
  let s : Sched := { s with waitBlobs := s.waitBlobs.initHead c }
  let (s, ret, target) ← listForeach (fun st t => st.1.globalTasks.next t)
    (scanTask c pidHint options) s.globalTasks.appended (s.globalTasks.headNext ())
    ((s, -1, none) : WaitState)
  if s.waitBlobs.headNext c ≠ none then
    let s ← transitState s c .interruptible
    let pending := Function.update s.pending c (some ⟨ret, target, pidHint, options⟩)
    return (none, ← userspaceTrapHandler { s with pending })
  else
    let (ret, s) ← finishWait4 s c ret target options
    return (some ret, s)

/-- `call_wait4` behind its `yield_cpu`. -/
def resumeWait4 (s : Sched) (c : TaskId) (wait : PendingWait) : Result (Word × Sched) :=
  finishWait4 { s with pending := Function.update s.pending c none } c wait.ret wait.target
    wait.options

/-! ## What waking up does -/

/-- A task that was woken. -/
def Task.wake (task : Task) : Task :=
  if task.state = .interruptible then { task with state := .running } else task

@[simp] theorem Task.wake_wake (task : Task) : task.wake.wake = task.wake := by
  unfold Task.wake
  split <;> simp_all

theorem Task.wake_state {task : Task} (h : task.state = .running ∨ task.state = .interruptible) :
    task.wake.state = .running := by
  rcases h with h | h
  · simp [Task.wake, h]
  · simp [Task.wake, h]

theorem Task.wake_of_ne {task : Task} (h : task.state ≠ .interruptible) : task.wake = task :=
  if_neg h

/-- Waking a task changes its state only. -/
theorem Task.wake_eq (task : Task) : ∃ state, task.wake = { task with state } := by
  unfold Task.wake
  split
  next => exact ⟨.running, rfl⟩
  next => exact ⟨task.state, rfl⟩

theorem rawTaskWakeUp_spec {s : Sched} {t : TaskId}
    (h : (s.tasks t).state = .running ∨ (s.tasks t).state = .interruptible) :
    rawTaskWakeUp s t = .ok { s with tasks := Function.update s.tasks t (s.tasks t).wake } := by
  rcases h with h | h
  · have hsame : (s.tasks t).wake = s.tasks t := Task.wake_of_ne (by simp [h])
    simp only [rawTaskWakeUp, h, hsame, Function.update_eq_self, pure_eq_ok]
  · simp only [rawTaskWakeUp, h, transitState, transitionTable, check_true, ok_bind, pure_eq_ok,
      Sched.modifyTask, Task.wake, if_true]

/-- The tasks after those with an entry among `blobs` are woken. -/
def Sched.wokenTasks (s : Sched) (blobs : List BlobId) (t : TaskId) : Task :=
  if t ∈ blobs.map fun blob => (s.blobs blob).task then (s.tasks t).wake else s.tasks t

theorem Sched.wokenTasks_nil (s : Sched) : s.wokenTasks [] = s.tasks := by
  funext t
  simp [Sched.wokenTasks]

theorem Sched.wokenTasks_concat (s : Sched) (blobs : List BlobId) (blob : BlobId) :
    s.wokenTasks (blobs ++ [blob]) = Function.update (s.wokenTasks blobs) (s.blobs blob).task
      (s.wokenTasks blobs (s.blobs blob).task).wake := by
  funext t
  by_cases ht : t = (s.blobs blob).task
  · subst ht
    rw [Function.update_self]
    unfold Sched.wokenTasks
    rw [if_pos (by simp)]
    split
    next => rw [Task.wake_wake]
    next => rfl
  · rw [Function.update_of_ne ht]
    simp [Sched.wokenTasks, ht]

theorem Sched.wokenTasks_eq (s : Sched) (blobs : List BlobId) (t : TaskId) :
    ∃ state, s.wokenTasks blobs t = { s.tasks t with state } := by
  unfold Sched.wokenTasks
  split
  next => exact (s.tasks t).wake_eq
  next => exact ⟨(s.tasks t).state, rfl⟩

/-- The task of each entry of the wait queue is woken. -/
theorem wakeUp_spec {s : Sched} {w : TaskId → List BlobId} (hw : s.waitQueues.Represents w)
    {t : TaskId} (hstate : ∀ blob ∈ w t, (s.tasks (s.blobs blob).task).state = .running ∨
      (s.tasks (s.blobs blob).task).state = .interruptible) :
    wakeUp s t = .ok { s with tasks := s.wokenTasks (w t) } := by
  let inv : List BlobId → Sched → Prop := fun l s' => ∃ d, w t = d ++ l ∧
    s' = { s with tasks := s.wokenTasks d }
  obtain ⟨s', hrun, d, hd, rfl⟩ : ∃ s', wakeUp s t = .ok s' ∧ inv [] s' := by
    rw [wakeUp, hw.first]
    refine listForeach_spec inv (fun _ h => h) ?_ (hw.bound t)
      ⟨[], rfl, by rw [Sched.wokenTasks_nil]⟩
    rintro blob l s' ⟨d, hd, rfl⟩
    refine ⟨(hw.next_eq hd).1, { s with tasks := s.wokenTasks (d ++ [blob]) }, false, ?_,
      d ++ [blob], by simp [hd], rfl⟩
    have hwoken : (s.wokenTasks d (s.blobs blob).task).state = .running ∨
        (s.wokenTasks d (s.blobs blob).task).state = .interruptible := by
      have hold := hstate blob (by simp [hd])
      unfold Sched.wokenTasks
      split
      next => exact Or.inl (Task.wake_state hold)
      next => exact hold
    have hwake := rawTaskWakeUp_spec (s := { s with tasks := s.wokenTasks d }) hwoken
    rw [← s.wokenTasks_concat] at hwake
    exact bind_eq_ok.mpr ⟨_, hwake, rfl⟩
  rw [List.append_nil] at hd
  rw [hd]
  exact hrun

/-! ## The two lists of a wait blob -/

/-- The wait queues hold the lists `w`, the lists of wait blobs are `k`, and every
blob is in both: in the wait queue of the task it waits for, and in the list of
the task that waits. -/
structure Sched.WaitLists (s : Sched) (w k : TaskId → List BlobId) : Prop where
  queues : s.waitQueues.Represents w
  lists : s.waitBlobs.Represents k
  of_queue : ∀ t blob, blob ∈ w t → blob < s.nrBlobs ∧ (s.blobs blob).vm = t ∧
    blob ∈ k (s.blobs blob).task
  of_list : ∀ p blob, blob ∈ k p → blob < s.nrBlobs ∧ (s.blobs blob).task = p ∧
    blob ∈ w (s.blobs blob).vm

/-- The tasks that a task has a wait blob for. -/
def Sched.awaited (s : Sched) (k : TaskId → List BlobId) (p : TaskId) : List TaskId :=
  (k p).map fun blob => (s.blobs blob).vm

/-- The states differ in the wait lists only. -/
def Sched.SameButWaits (s s' : Sched) : Prop :=
  ∃ waitQueues waitBlobs blobs nrBlobs,
    s' = { s with waitQueues, waitBlobs, blobs, nrBlobs }

theorem Sched.SameButWaits.refl (s : Sched) : s.SameButWaits s := ⟨_, _, _, _, rfl⟩

theorem Sched.SameButWaits.trans {s s' s'' : Sched} (h : s.SameButWaits s')
    (h' : s'.SameButWaits s'') : s.SameButWaits s'' := by
  obtain ⟨_, _, _, _, rfl⟩ := h
  obtain ⟨_, _, _, _, rfl⟩ := h'
  exact ⟨_, _, _, _, rfl⟩

/-- A new blob is last in both its lists. -/
theorem queueWaitBlob_spec {s : Sched} {w k : TaskId → List BlobId} (h : s.WaitLists w k)
    (c t : TaskId) :
    ∃ s', queueWaitBlob s c t = .ok s' ∧ s.SameButWaits s' ∧
      s'.WaitLists (Function.update w t (w t ++ [s.nrBlobs]))
        (Function.update k c (k c ++ [s.nrBlobs])) ∧
      s'.blobs = Function.update s.blobs s.nrBlobs ⟨t, c⟩ := by
  have hnewQueue : ∀ u, s.nrBlobs ∉ w u := fun u hu => Nat.lt_irrefl _ (h.of_queue u _ hu).1
  have hnewList : ∀ p, s.nrBlobs ∉ k p := fun p hp => Nat.lt_irrefl _ (h.of_list p _ hp).1
  obtain ⟨waitBlobs, hlist, hk⟩ := (h.lists.initNode hnewList).append c hnewList
  have hw₀ := h.queues.initNode hnewQueue
  obtain ⟨waitQueues, hqueue, hw⟩ := hw₀.append t hnewQueue
  have hfresh : elementInList (s.waitQueues.initNode s.nrBlobs) t s.nrBlobs = .ok false := by
    rw [hw₀.elementInList, decide_eq_false (hnewQueue t)]
  refine ⟨{ s with
      blobs := Function.update s.blobs s.nrBlobs ⟨t, c⟩
      nrBlobs := s.nrBlobs + 1
      waitQueues
      waitBlobs }, ?_, ⟨_, _, _, _, rfl⟩, ?_, rfl⟩
  · simp only [queueWaitBlob, addWaitQueueEntry, hlist, hfresh, hqueue, ok_bind, pure_eq_ok,
      Bool.false_eq_true, if_false]
  have hmem : ∀ (f : TaskId → List BlobId) (a u : TaskId) (blob : BlobId),
      blob ∈ Function.update f a (f a ++ [s.nrBlobs]) u ↔
        blob ∈ f u ∨ blob = s.nrBlobs ∧ u = a := by
    intro f a u blob
    by_cases hu : u = a
    · subst hu
      simp
    · simp [hu]
  refine ⟨hw, hk, ?_, ?_⟩
  · intro u blob hblob
    rw [hmem] at hblob
    rcases hblob with hblob | ⟨rfl, rfl⟩
    · obtain ⟨hlt, hvm, hin⟩ := h.of_queue u blob hblob
      simp only [Function.update_of_ne (Nat.ne_of_lt hlt)]
      exact ⟨Nat.lt_succ_of_lt hlt, hvm, (hmem k c _ blob).mpr (Or.inl hin)⟩
    · simp only [Function.update_self, true_and]
      exact ⟨Nat.lt_succ_self _, by simp⟩
  · intro p blob hblob
    rw [hmem] at hblob
    rcases hblob with hblob | ⟨rfl, rfl⟩
    · obtain ⟨hlt, htask, hin⟩ := h.of_list p blob hblob
      simp only [Function.update_of_ne (Nat.ne_of_lt hlt)]
      exact ⟨Nat.lt_succ_of_lt hlt, htask, (hmem w t _ blob).mpr (Or.inl hin)⟩
    · simp only [Function.update_self, true_and]
      exact ⟨Nat.lt_succ_self _, by simp⟩

/-- What a new blob adds to the tasks that are waited for. -/
theorem Sched.WaitLists.awaited_queue {s s' : Sched} {w k : TaskId → List BlobId}
    (h : s.WaitLists w k) {c t : TaskId}
    (hblobs : s'.blobs = Function.update s.blobs s.nrBlobs ⟨t, c⟩) :
    s'.awaited (Function.update k c (k c ++ [s.nrBlobs])) =
      Function.update (s.awaited k) c (s.awaited k c ++ [t]) := by
  have hold : ∀ p, (k p).map (fun blob => (s'.blobs blob).vm) = s.awaited k p := by
    intro p
    refine List.map_congr_left fun blob hblob => ?_
    rw [hblobs, Function.update_of_ne (Nat.ne_of_lt (h.of_list p blob hblob).1)]
  funext p
  by_cases hp : p = c
  · subst hp
    rw [Sched.awaited, Function.update_self, Function.update_self, List.map_append, hold]
    simp [hblobs]
  · rw [Sched.awaited, Function.update_of_ne hp, Function.update_of_ne hp, hold]

/-! ## What the scan of the task list does -/

/-- The task `t` is one that `c` waits for, given the hint. -/
def Sched.matching (s : Sched) (c : TaskId) (pidHint : Word) (t : TaskId) : Bool :=
  isToWait (s.tasks c) (s.tasks t) pidHint

/-- What holds when a call of `wait4` by `c` has scanned the tasks `d` and the tasks
`l` are left: no exited child was met, and the live ones are waited for. -/
structure Scanned (s : Sched) (c : TaskId) (pidHint options : Word) (k : TaskId → List BlobId)
    (d : List TaskId) (s' : Sched) (w' k' : TaskId → List BlobId) : Prop where
  live : ∀ t ∈ d, s.matching c pidHint t = true → (s.tasks t).waitStateExited = false
  same : s.SameButWaits s'
  waits : s'.WaitLists w' k'
  awaited : s'.awaited k' = Function.update (s.awaited k) c
    (s.awaited k c ++ if noHang options then [] else d.filter (s.matching c pidHint))

/-- The body of the loop, at a task that is no exited child. -/
theorem Scanned.step {s : Sched} {c : TaskId} {pidHint options : Word}
    {k : TaskId → List BlobId} {d : List TaskId} {s' : Sched} {w' k' : TaskId → List BlobId}
    (h : Scanned s c pidHint options k d s' w' k') {t : TaskId}
    (ht : s.matching c pidHint t = true → (s.tasks t).waitStateExited = false)
    {ret : Word} (hret : ret.toInt ≤ 0) :
    ∃ s'' ret'' w'' k'', scanTask c pidHint options t (s', ret, none) =
        .ok ((s'', ret'', none), false) ∧
      Scanned s c pidHint options k (d ++ [t]) s'' w'' k'' ∧ ret''.toInt ≤ 0 := by
  have htasks : s'.tasks = s.tasks := by
    obtain ⟨_, _, _, _, rfl⟩ := h.same
    rfl
  have hlive : ∀ u ∈ d ++ [t], s.matching c pidHint u = true →
      (s.tasks u).waitStateExited = false := by
    intro u hu
    rcases List.mem_append.mp hu with hu | hu
    · exact h.live u hu
    · rw [List.mem_singleton.mp hu]
      exact ht
  unfold Sched.matching at ht
  cases hmatch : isToWait (s.tasks c) (s.tasks t) pidHint with
  | false =>
    refine ⟨s', ret, w', k', ?_, ⟨hlive, h.same, h.waits, ?_⟩, hret⟩
    · simp only [scanTask, htasks, hmatch, if_true, pure_eq_ok]
    · simp [h.awaited, Sched.matching, hmatch]
  | true =>
    have hexit := ht hmatch
    cases hhang : noHang options with
    | true =>
      refine ⟨s', 0, w', k', ?_, ⟨hlive, h.same, h.waits, ?_⟩, by decide⟩
      · simp [scanTask, htasks, hmatch, hexit, hhang]
      · simpa [hhang] using h.awaited
    | false =>
      obtain ⟨s'', hrun, hsame, hwaits, hblobs⟩ := queueWaitBlob_spec h.waits c t
      refine ⟨s'', 0, _, _, ?_, ⟨hlive, h.same.trans hsame, hwaits, ?_⟩, by decide⟩
      · simp [scanTask, htasks, hmatch, hexit, hhang, hrun]
      · rw [h.waits.awaited_queue hblobs, h.awaited]
        simp [hhang, Sched.matching, hmatch]

/-- What the loop of `call_wait4` chose when it stopped in front of `l`: nothing at the end of
the list, or the exited child that comes first. -/
def Sched.StopsAt (s : Sched) (c : TaskId) (pidHint : Word) (l : List TaskId) (ret : Word)
    (target : Option TaskId) : Prop :=
  l = [] ∧ target = none ∧ ret.toInt ≤ 0 ∨
    ∃ t l', l = t :: l' ∧ s.matching c pidHint t = true ∧
      (s.tasks t).waitStateExited = true ∧ ret = (s.tasks t).pid ∧ target = some t

theorem Sched.StopsAt.target_ne_none {s : Sched} {c : TaskId} {pidHint ret : Word}
    {l : List TaskId} {target : Option TaskId} (h : s.StopsAt c pidHint l ret target)
    (hpos : 0 < ret.toInt) : target ≠ none := by
  rcases h with ⟨-, -, hret⟩ | ⟨t, -, -, -, -, -, rfl⟩
  · omega
  · exact Option.some_ne_none t

/-- The loop of `call_wait4` over the task list stops at the first exited child
or goes to the end. -/
theorem scanTasks_spec {s : Sched} {g : List TaskId}
    (hg : s.globalTasks.Represents fun _ => g) {w k : TaskId → List BlobId}
    (h : s.WaitLists w k) (c : TaskId) (pidHint options : Word) :
    ∃ s' ret target, listForeach (fun st t => st.1.globalTasks.next t)
        (scanTask c pidHint options) s.globalTasks.appended (s.globalTasks.headNext ())
        ((s, -1, none) : WaitState) = .ok (s', ret, target) ∧
      ∃ d l w' k', g = d ++ l ∧ Scanned s c pidHint options k d s' w' k' ∧
        s.StopsAt c pidHint l ret target := by
  let inv : List TaskId → WaitState → Prop := fun l st => ∃ d w' k', g = d ++ l ∧
    Scanned s c pidHint options k d st.1 w' k' ∧ st.2.2 = none ∧ st.2.1.toInt ≤ 0
  let post : WaitState → Prop := fun st => ∃ d l w' k', g = d ++ l ∧
    Scanned s c pidHint options k d st.1 w' k' ∧ s.StopsAt c pidHint l st.2.1 st.2.2
  obtain ⟨⟨s', ret, target⟩, hrun, hpost⟩ : ∃ st, listForeach
      (fun st t => st.1.globalTasks.next t) (scanTask c pidHint options) s.globalTasks.appended
      (s.globalTasks.headNext ()) ((s, -1, none) : WaitState) = .ok st ∧ post st := by
    rw [hg.first]
    refine listForeach_spec inv ?_ ?_ (hg.bound ()) ?_
    · rintro st ⟨d, w', k', hd, hscan, htarget, hret⟩
      exact ⟨d, [], w', k', hd, hscan, Or.inl ⟨rfl, htarget, hret⟩⟩
    · rintro t l ⟨s', ret, target⟩ ⟨d, w', k', hd, hscan, htarget, hret⟩
      obtain rfl : target = none := htarget
      have hglobal : s'.globalTasks = s.globalTasks ∧ s'.tasks = s.tasks := by
        obtain ⟨_, _, _, _, hs'⟩ : s.SameButWaits s' := hscan.same
        subst hs'
        exact ⟨rfl, rfl⟩
      refine ⟨?_, ?_⟩
      · show s'.globalTasks.next t = l.head?
        rw [hglobal.1]
        exact (hg.next_eq (a := ()) hd).1
      · by_cases hfound : s.matching c pidHint t = true ∧ (s.tasks t).waitStateExited = true
        · refine ⟨(s', (s.tasks t).pid, some t), true, ?_, d, t :: l, w', k', hd, hscan,
            Or.inr ⟨t, l, rfl, hfound.1, hfound.2, rfl, rfl⟩⟩
          have hmatch := hfound.1
          unfold Sched.matching at hmatch
          simp [scanTask, hglobal.2, hmatch, hfound.2]
        · have ht : s.matching c pidHint t = true → (s.tasks t).waitStateExited = false :=
            fun hmatch => Bool.eq_false_iff.mpr fun hexit => hfound ⟨hmatch, hexit⟩
          obtain ⟨s'', ret'', w'', k'', hrun, hscan', hret''⟩ := hscan.step ht hret
          exact ⟨_, false, hrun, d ++ [t], w'', k'', by simp [hd], hscan', rfl, hret''⟩
    · have hret : (-1 : Word).toInt ≤ 0 := by decide
      exact ⟨[], w, k, rfl, ⟨by simp, .refl s, h, by simp⟩, rfl, hret⟩
  exact ⟨s', ret, target, hrun, hpost⟩

/-! ## What the end of a wait does -/

theorem removeWaitQueueEntry_spec {s : Sched} {w : TaskId → List BlobId}
    (h : s.waitQueues.Represents w) {t : TaskId} {blob : BlobId} (hblob : blob ∈ w t) :
    ∃ waitQueues, removeWaitQueueEntry s t blob = .ok { s with waitQueues } ∧
      waitQueues.Represents (Function.update w t ((w t).erase blob)) := by
  obtain ⟨waitQueues, hdelete, hw⟩ := h.delete_mem hblob
  refine ⟨waitQueues, ?_, hw⟩
  simp only [removeWaitQueueEntry, h.elementInList, hblob, decide_true, ok_bind, if_true, hdelete,
    pure_eq_ok]

theorem unregisterTask_spec {s : Sched} {g : List TaskId}
    (h : s.globalTasks.Represents fun _ => g) (t : TaskId) :
    ∃ globalTasks, unregisterTask s t = .ok { s with globalTasks } ∧
      globalTasks.Represents fun _ => g.erase t := by
  by_cases ht : t ∈ g
  · obtain ⟨globalTasks, hdelete, hg⟩ := h.delete_mem (a := ()) ht
    refine ⟨globalTasks, ?_, ?_⟩
    · simp only [unregisterTask, h.elementInList, ht, decide_true, ok_bind, if_true, hdelete,
        pure_eq_ok]
    · have hconst : Function.update (fun _ : Unit => g) () (g.erase t) = fun _ => g.erase t := by
        funext u
        simp
      exact hconst ▸ hg
  · refine ⟨s.globalTasks, ?_, by rwa [List.erase_of_not_mem ht]⟩
    simp [unregisterTask, h.elementInList, ht]

/-- Taking a blob out of both its lists. -/
theorem Sched.WaitLists.release {s : Sched} {w k : TaskId → List BlobId} {c : TaskId}
    {x : BlobId} {l : List BlobId} (h : s.WaitLists w (Function.update k c (x :: l)))
    {waitQueues waitBlobs : ListHeap TaskId BlobId}
    (hw : waitQueues.Represents (Function.update w (s.blobs x).vm ((w (s.blobs x).vm).erase x)))
    (hk : waitBlobs.Represents (Function.update k c l)) :
    Sched.WaitLists { s with waitQueues, waitBlobs }
      (Function.update w (s.blobs x).vm ((w (s.blobs x).vm).erase x)) (Function.update k c l) := by
  obtain ⟨-, htask, -⟩ := h.of_list c x (by simp)
  have hxl : x ∉ l := by
    have := h.lists.nodup c
    rw [Function.update_self] at this
    exact (List.nodup_cons.mp this).1
  have hqueue : ∀ t blob, blob ∈ Function.update w (s.blobs x).vm ((w (s.blobs x).vm).erase x) t ↔
      blob ∈ w t ∧ blob ≠ x := by
    intro t blob
    by_cases ht : t = (s.blobs x).vm
    · subst ht
      rw [Function.update_self, (h.queues.nodup _).mem_erase_iff, and_comm]
    · rw [Function.update_of_ne ht]
      refine ⟨fun hblob => ⟨hblob, ?_⟩, And.left⟩
      rintro rfl
      exact ht (h.of_queue t blob hblob).2.1.symm
  have hlist : ∀ p blob, blob ∈ Function.update k c l p ↔
      blob ∈ Function.update k c (x :: l) p ∧ blob ≠ x := by
    intro p blob
    by_cases hp : p = c
    · subst hp
      rw [Function.update_self, Function.update_self, List.mem_cons]
      refine ⟨fun hblob => ⟨Or.inr hblob, fun heq => hxl (heq ▸ hblob)⟩, ?_⟩
      rintro ⟨hblob | hblob, hne⟩
      · exact absurd hblob hne
      · exact hblob
    · rw [Function.update_of_ne hp, Function.update_of_ne hp]
      refine ⟨fun hblob => ⟨hblob, ?_⟩, And.left⟩
      rintro rfl
      have hin : blob ∈ Function.update k c (blob :: l) p := by rwa [Function.update_of_ne hp]
      exact hp ((h.of_list p blob hin).2.1.symm.trans htask)
  refine ⟨hw, hk, ?_, ?_⟩
  · intro t blob hblob
    obtain ⟨hin, hne⟩ := (hqueue t blob).mp hblob
    obtain ⟨hlt, hvm, hmem⟩ := h.of_queue t blob hin
    exact ⟨hlt, hvm, (hlist _ blob).mpr ⟨hmem, hne⟩⟩
  · intro p blob hblob
    obtain ⟨hin, hne⟩ := (hlist p blob).mp hblob
    obtain ⟨hlt, htask, hmem⟩ := h.of_list p blob hin
    exact ⟨hlt, htask, (hqueue _ blob).mpr ⟨hmem, hne⟩⟩

/-- The state of a task has changed in a way that `wait4` reports. -/
def Sched.stateChanged (s : Sched) (options : Word) (t : TaskId) : Bool :=
  (s.tasks t).waitStateExited ||
    untraced options && ((s.tasks t).waitStateContinued || (s.tasks t).waitStateStopped)

/-- `ret` and `target_vm` behind a wait blob. -/
def Sched.choose (s : Sched) (options : Word) (found : Word × Option TaskId) (blob : BlobId) :
    Word × Option TaskId :=
  if found.1.toInt ≤ 0 ∧ s.stateChanged options (s.blobs blob).vm then
    ((s.tasks (s.blobs blob).vm).pid, some (s.blobs blob).vm)
  else found

/-- The task list behind a call of `wait4` with the given result. -/
def reapedList (g : List TaskId) (found : Word × Option TaskId) : List TaskId :=
  if 0 < found.1.toInt then found.2.elim g g.erase else g

theorem reapedList_sublist (g : List TaskId) (found : Word × Option TaskId) :
    (reapedList g found).Sublist g := by
  obtain ⟨ret, target⟩ := found
  unfold reapedList
  split
  next =>
    cases target with
    | none => exact .refl g
    | some t => exact List.erase_sublist
  next => exact .refl g

theorem choose_target {s : Sched} {options : Word} {found : Word × Option TaskId} {blob : BlobId}
    (h : 0 < found.1.toInt → found.2 ≠ none) :
    0 < (s.choose options found blob).1.toInt → (s.choose options found blob).2 ≠ none := by
  unfold Sched.choose
  split
  next => simp
  next => exact h

/-- The end of `call_wait4` returns: the caller waits for nothing any more, the first of its
wait blobs with news decides the result unless there is one, and the task found is taken off
the task list. -/
theorem finishWait4_spec {s : Sched} {g : List TaskId}
    (hg : s.globalTasks.Represents fun _ => g) {w k : TaskId → List BlobId}
    (h : s.WaitLists w k) (c : TaskId) {ret : Word} {target : Option TaskId} (options : Word)
    (hret : 0 < ret.toInt → target ≠ none) :
    ∃ globalTasks waitQueues waitBlobs w',
      finishWait4 s c ret target options =
        .ok (((k c).foldl (s.choose options) (ret, target)).1,
          { s with globalTasks, waitQueues, waitBlobs }) ∧
      globalTasks.Represents
        (fun _ => reapedList g ((k c).foldl (s.choose options) (ret, target))) ∧
      Sched.WaitLists { s with globalTasks, waitQueues, waitBlobs } w'
        (Function.update k c []) := by
  let inv : List BlobId → WaitState → Prop := fun l st => ∃ waitQueues waitBlobs w',
    st.1 = { s with waitQueues, waitBlobs } ∧
    Sched.WaitLists { s with waitQueues, waitBlobs } w' (Function.update k c l) ∧
    (0 < st.2.1.toInt → st.2.2 ≠ none) ∧
    l.foldl (s.choose options) st.2 = (k c).foldl (s.choose options) (ret, target)
  obtain ⟨⟨s', ret', target'⟩, hrun, hinv⟩ : ∃ st, whileFetch (fetchWaitBlob c)
      (releaseWaitBlob options) (s.waitBlobs.appended + 1) (s, ret, target) = .ok st ∧
        inv [] st := by
    refine whileFetch_spec inv ?_ ?_ (Nat.lt_succ_of_le (h.lists.bound c))
      ⟨s.waitQueues, s.waitBlobs, w, rfl, by rwa [Function.update_eq_self], hret, rfl⟩
    · rintro ⟨s', ret', target'⟩ ⟨waitQueues, waitBlobs, w', hs', hwaits, hrest⟩
      obtain rfl : s' = { s with waitQueues, waitBlobs } := hs'
      refine ⟨_, ?_, waitQueues, waitBlobs, w', rfl, hwaits, hrest⟩
      simp only [fetchWaitBlob, hwaits.lists.fetch_nil (a := c) (by simp), ok_bind, pure_eq_ok]
    · rintro x l ⟨s', ret', target'⟩ ⟨waitQueues, waitBlobs, w', hs', hwaits, htarget, hfold⟩
      obtain rfl : s' = { s with waitQueues, waitBlobs } := hs'
      obtain ⟨waitBlobs₁, hfetch, hk₁⟩ := hwaits.lists.fetch_cons
        (Function.update_self c (x :: l) k)
      rw [Function.update_idem] at hk₁
      have hx : x ∈ w' (s.blobs x).vm := (hwaits.of_list c x (by simp)).2.2
      obtain ⟨waitQueues₁, hremove, hw₁⟩ := removeWaitQueueEntry_spec
        (s := { s with waitQueues, waitBlobs := waitBlobs₁ }) hwaits.queues hx
      have hwaits₁ := hwaits.release hw₁ hk₁
      refine ⟨({ s with waitQueues, waitBlobs := waitBlobs₁ }, ret', target'), ?_,
        ({ s with waitQueues := waitQueues₁, waitBlobs := waitBlobs₁ },
          s.choose options (ret', target') x), false, ?_, waitQueues₁, waitBlobs₁, _, rfl, hwaits₁,
        choose_target htarget, hfold⟩
      · simp only [fetchWaitBlob, hfetch, ok_bind, pure_eq_ok]
      · simp only [releaseWaitBlob, hremove, ok_bind]
        split
        next hnews =>
          have hchoose : s.choose options (ret', target') x =
            ((s.tasks (s.blobs x).vm).pid, some (s.blobs x).vm) := if_pos hnews
          rw [hchoose, pure_eq_ok]
        next hnone =>
          have hchoose : s.choose options (ret', target') x = (ret', target') := if_neg hnone
          rw [hchoose, pure_eq_ok]
  obtain ⟨waitQueues, waitBlobs, w', hs', hwaits, htarget, hfold⟩ := hinv
  obtain rfl : s' = { s with waitQueues, waitBlobs } := hs'
  rw [← hfold, List.foldl_nil]
  by_cases hpos : 0 < ret'.toInt
  · obtain ⟨t, ht⟩ := Option.ne_none_iff_exists'.mp (htarget hpos)
    obtain rfl : target' = some t := ht
    obtain ⟨globalTasks, hunregister, hg'⟩ := unregisterTask_spec
      (s := { s with waitQueues, waitBlobs }) hg t
    refine ⟨globalTasks, waitQueues, waitBlobs, w', ?_, ?_,
      ⟨hwaits.queues, hwaits.lists, hwaits.of_queue, hwaits.of_list⟩⟩
    · simp only [finishWait4, hrun, ok_bind, if_pos hpos, hunregister, pure_eq_ok]
    · rwa [reapedList, if_pos hpos]
  · refine ⟨s.globalTasks, waitQueues, waitBlobs, w', ?_, ?_, hwaits⟩
    · simp only [finishWait4, hrun, ok_bind, if_neg hpos, pure_eq_ok]
    · rwa [reapedList, if_neg hpos]

/-! ## Runs -/

/-- A step of the current task. -/
inductive TaskAction where
  | clone (flags : Word)
  | wait4 (pidHint options : Word)
  | exit
  | yield
  | resume
deriving DecidableEq

/-- The result of a step, if the current task can make it.  A task that is inside
`call_wait4` goes on with it, and the idle task only yields. -/
def Sched.perform (s : Sched) (action : TaskAction) : Option (Result Sched) :=
  match s.current with
  | none => if action = .yield then some (userspaceTrapHandler s) else none
  | some c =>
      match s.pending c, action with
      | none, .clone flags => some (cloneTask s c flags)
      | none, .wait4 pidHint options => some (do return (← callWait4 s c pidHint options).2)
      | none, .exit => some (doExit s c)
      | none, .yield => some (userspaceTrapHandler s)
      | none, .resume => none
      | some wait, .resume => some (do return (← resumeWait4 s c wait).2)
      | some _, _ => none

/-- The runs of the system from the start-up of `main`. -/
def schedRuns : System Sched TaskAction where
  init s := boot = .ok s
  step s action s' := s.perform action = some (.ok s')

/-- The state behind a step, if the current task can make it and it returns. -/
def Sched.follow (s : Sched) (action : TaskAction) : Option Sched :=
  match s.perform action with
  | some (.ok s') => some s'
  | _ => none

/-- The state behind some steps from the start-up. -/
def schedRun (actions : List TaskAction) : Option Sched :=
  match boot with
  | .ok s => actions.foldlM Sched.follow s
  | .error _ => none

theorem schedRuns_step_of_follow {s s' : Sched} {action : TaskAction}
    (h : s.follow action = some s') : schedRuns.step s action s' := by
  unfold Sched.follow at h
  split at h
  next hstep => rwa [← Option.some.inj h]
  next => cases h

theorem reachable_of_schedRun {actions : List TaskAction} {s : Sched}
    (h : schedRun actions = some s) : schedRuns.Reachable s := by
  unfold schedRun at h
  split at h
  next s₀ hboot =>
    exact (System.Reachable.init (M := schedRuns) hboot).foldlM
      (fun _ _ _ => schedRuns_step_of_follow) h
  next => cases h

end Hyrule
