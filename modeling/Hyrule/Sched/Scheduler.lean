import Hyrule.Util.List
import Hyrule.Util.Word

/-!
# The scheduler

`task_sched.c` and the trap handler of `vmm_sched.c`.  A task is a
`struct virtual_machine` with its `struct hart`, identified by the order in which
tasks are created.  `current` is the task that runs, or nothing for the idle
task.

The trap handler queues the current task by its state, moves the woken tasks of
the blocking list to the running list, drops the exiting tasks, and takes the
first running task.  `userspaceTrapHandler_spec` gives its result as lists:
`dispatchRunning` and `dispatchBlocking` are the two lists it leaves.
-/

namespace Hyrule

open Lib Lib.Result

/-! ## Tasks -/

/-- A task, by the order of creation. -/
abbrev TaskId := Nat

/-- A `struct wait_blob`, by the order of allocation. -/
abbrev BlobId := Nat

/-- `enum task_state`. -/
inductive TaskState where
  | zombie
  | running
  | interruptible
  | uninterruptible
  | exiting
deriving DecidableEq, Repr

/-- `transition_table`. -/
def transitionTable : TaskState → TaskState → Bool
  | .zombie, .zombie | .running, .running | .exiting, .exiting
  | .interruptible, .interruptible | .uninterruptible, .uninterruptible
  | .running, .interruptible | .running, .uninterruptible | .running, .exiting
  | .interruptible, .running | .interruptible, .uninterruptible
  | .uninterruptible, .running | .uninterruptible, .interruptible => true
  | _, _ => false

/-- The fields of a task that the scheduler and `wait4` use. -/
structure Task where
  pid : Word
  ppid : Word
  tgid : Word
  /-- `parent_vm`. -/
  parent : Option TaskId
  state : TaskState
  nonStopState : TaskState
  waitStateExited : Bool
  waitStateStopped : Bool
  waitStateContinued : Bool

/-- The heads `running_tasks`, `blocking_tasks` and `exiting_tasks`. -/
inductive Queue where
  | running
  | blocking
  | exiting
deriving DecidableEq, Repr

/-- `struct wait_blob`: the task waited for, and the task of its wait queue
entry. -/
structure WaitBlob where
  vm : TaskId
  task : TaskId

/-- What `call_wait4` keeps on its stack while its task is blocked. -/
structure PendingWait where
  ret : Word
  target : Option TaskId
  pidHint : Word
  options : Word

/-- The tasks, and the lists they are in. -/
structure Sched where
  tasks : TaskId → Task
  nrTasks : Nat
  gpidCounter : Word
  /-- `current`; nothing is the idle task. -/
  current : Option TaskId
  /-- The task, or the idle task, has a saved `host_cpustate`. -/
  hostCpustate : Option TaskId → Bool
  queues : ListHeap Queue TaskId
  globalTasks : ListHeap Unit TaskId
  /-- `wq_state_notification` of each task. -/
  waitQueues : ListHeap TaskId BlobId
  /-- `wait_blob_head` on the stack of each task. -/
  waitBlobs : ListHeap TaskId BlobId
  blobs : BlobId → WaitBlob
  nrBlobs : Nat
  /-- The calls of `wait4` that are blocked. -/
  pending : TaskId → Option PendingWait

/-- The task with some fields changed. -/
def Sched.modifyTask (s : Sched) (t : TaskId) (f : Task → Task) : Sched :=
  { s with tasks := Function.update s.tasks t (f (s.tasks t)) }

/-- `CLONE_THREAD`. -/
def cloneThread : Word := 0x00010000

/-! ## State transitions and queues -/

/-- `transit_state`. -/
def transitState (s : Sched) (t : TaskId) (target : TaskState) : Result Sched := do
  check (transitionTable (s.tasks t).state target = true)
  return s.modifyTask t fun task => { task with state := target }

/-- The queue that `schedule_task` puts a task of some state in. -/
def queueOf : TaskState → Option Queue
  | .running => some .running
  | .interruptible => some .blocking
  | .uninterruptible => some .blocking
  | .exiting => some .exiting
  | .zombie => none

/-- `schedule_task`. -/
def scheduleTask (s : Sched) (t : TaskId) : Result Sched := do
  match queueOf (s.tasks t).state with
  | none => throw .assertion
  | some queue => return { s with queues := ← listAppend s.queues queue t }

/-- The body of the loop of `process_blocking_list`. -/
def processBlocked (t : TaskId) (s : Sched) : Result (Sched × Bool) := do
  match (s.tasks t).state with
  | .running | .exiting =>
      let queues ← listDelete s.queues .blocking t
      return (← scheduleTask { s with queues } t, false)
  | .interruptible | .uninterruptible => return (s, false)
  | .zombie => throw .assertion

/-- `process_blocking_list`. -/
def processBlockingList (s : Sched) : Result Sched :=
  listForeach (fun s t => s.queues.next t) processBlocked s.queues.appended
    (s.queues.headNext .blocking) s

/-- `list_fetch` of a queue. -/
def fetchTask (queue : Queue) (s : Sched) : Result (Option TaskId × Sched) := do
  let (elem, queues) ← listFetch s.queues queue
  return (elem, { s with queues })

/-- `process_exiting_list`. -/
def processExitingList (s : Sched) : Result Sched :=
  whileFetch (fetchTask .exiting) (fun _ s => return (s, false)) (s.queues.appended + 1) s

/-- `process_running_list`, with `next_task` beside the state. -/
def processRunningList (s : Sched) : Result (Option TaskId × Sched) :=
  whileFetch (fun (next, s) => do let (elem, s) ← fetchTask .running s; return (elem, next, s))
    (fun t (next, s) => do
      if (s.tasks t).state = .running then return ((some t, s), true)
      else return ((next, ← scheduleTask s t), false))
    (s.queues.appended + 1) (none, s)

/-- The current task is queued, unless it is the idle task. -/
def scheduleCurrent (s : Sched) : Result Sched :=
  match s.current with
  | none => return s
  | some t => scheduleTask s t

/-- `userspace_trap_handler`, which `yield_cpu` enters. -/
def userspaceTrapHandler (s : Sched) : Result Sched := do
  let s := { s with hostCpustate := Function.update s.hostCpustate s.current true }
  let s ← scheduleCurrent s
  let s ← processBlockingList s
  let s ← processExitingList s
  let (next, s) ← processRunningList s
  check (s.hostCpustate next = true)
  return { s with current := next }

/-! ## The queues as lists -/

/-- The lists of the three queues. -/
def queueLists (r b x : List TaskId) : Queue → List TaskId
  | .running => r
  | .blocking => b
  | .exiting => x

section

variable {r b x : List TaskId}

@[simp] theorem update_running (l : List TaskId) :
    Function.update (queueLists r b x) .running l = queueLists l b x := by
  funext q
  cases q <;> rfl

@[simp] theorem update_blocking (l : List TaskId) :
    Function.update (queueLists r b x) .blocking l = queueLists r l x := by
  funext q
  cases q <;> rfl

@[simp] theorem update_exiting (l : List TaskId) :
    Function.update (queueLists r b x) .exiting l = queueLists r b l := by
  funext q
  cases q <;> rfl

theorem not_mem_queueLists {t : TaskId} (hr : t ∉ r) (hb : t ∉ b) (hx : t ∉ x) :
    ∀ q, t ∉ queueLists r b x q
  | .running => hr
  | .blocking => hb
  | .exiting => hx

end

/-- The queues of a state hold the given lists. -/
def Sched.Queued (s : Sched) (r b x : List TaskId) : Prop :=
  s.queues.Represents (queueLists r b x)

/-! ## What the steps of the trap handler do -/

theorem scheduleTask_spec {s : Sched} {t : TaskId} {seq : Queue → List TaskId}
    (hq : s.queues.Represents seq) (ht : ∀ q, t ∉ seq q) {queue : Queue}
    (hstate : queueOf (s.tasks t).state = some queue) :
    ∃ queues, scheduleTask s t = .ok { s with queues } ∧
      queues.Represents (Function.update seq queue (seq queue ++ [t])) := by
  obtain ⟨queues, hrun, hq'⟩ := hq.append queue ht
  refine ⟨queues, ?_, hq'⟩
  simp only [scheduleTask, hstate, hrun, ok_bind, pure_eq_ok]

/-- The task is woken: its state is `TASK_STATE_RUNNING`. -/
def Sched.isRunning (s : Sched) (t : TaskId) : Bool := decide ((s.tasks t).state = .running)

/-- The blocking list is split into the tasks that were woken, which go behind the
running ones, and the others. -/
theorem processBlockingList_spec {s : Sched} {r b x : List TaskId} (hq : s.Queued r b x)
    (hb : ∀ t ∈ b, (s.tasks t).state = .running ∨ (s.tasks t).state = .interruptible) :
    ∃ queues, processBlockingList s = .ok { s with queues } ∧
      queues.Represents (queueLists (r ++ b.filter s.isRunning)
        (b.filter fun t => !s.isRunning t) x) := by
  -- Behind the first part `d` of the list, the rest `l` is still to come.
  let inv : List TaskId → Sched → Prop := fun l s' => ∃ d queues, b = d ++ l ∧
    s' = { s with queues } ∧
    queues.Represents (queueLists (r ++ d.filter s.isRunning)
      ((d.filter fun t => !s.isRunning t) ++ l) x)
  have hspec : ∃ s', listForeach (fun s t => s.queues.next t) processBlocked s.queues.appended
      b.head? s = .ok s' ∧ inv [] s' := by
    refine listForeach_spec inv (fun _ h => h) ?_ (hq.bound .blocking)
      ⟨[], s.queues, rfl, rfl, by simpa [queueLists, Sched.Queued] using hq⟩
    rintro t l s' ⟨d, queues, hbl, rfl, hrep⟩
    refine ⟨(hrep.next_eq (a := .blocking) rfl).1, ?_⟩
    have hnodup := hq.nodup .blocking
    have htb : t ∈ b := by simp [hbl]
    rcases hb t htb with hstate | hstate
    · have hrunning : s.isRunning t = true := by simp [Sched.isRunning, hstate]
      obtain ⟨queues₁, hdelete, hrep₁⟩ := hrep.delete (a := .blocking) rfl
      rw [update_blocking] at hrep₁
      have htout : ∀ q, t ∉ queueLists (r ++ d.filter s.isRunning)
          ((d.filter fun t => !s.isRunning t) ++ l) x q := by
        have hin : t ∈ queueLists (r ++ d.filter s.isRunning)
            ((d.filter fun t => !s.isRunning t) ++ t :: l) x .blocking := by simp [queueLists]
        refine not_mem_queueLists (fun h => ?_) (fun h => ?_) fun h => ?_
        · cases hrep.apart .running .blocking t h hin
        · have := hrep.nodup .blocking
          simp only [queueLists, List.nodup_middle, List.nodup_cons] at this
          exact this.1 h
        · cases hrep.apart .exiting .blocking t h hin
      obtain ⟨queues₂, hschedule, hrep₂⟩ := scheduleTask_spec
        (s := { s with queues := queues₁ }) hrep₁ htout
        (show queueOf (s.tasks t).state = some .running by simp [hstate, queueOf])
      refine ⟨{ s with queues := queues₂ }, false, ?_, d ++ [t], queues₂, ?_, rfl, ?_⟩
      · simp only [processBlocked, hstate, hdelete, ok_bind, hschedule, pure_eq_ok]
      · simp [hbl]
      · simpa [queueLists, hrunning] using hrep₂
    · have hrunning : s.isRunning t = false := by simp [Sched.isRunning, hstate]
      refine ⟨{ s with queues }, false, ?_, d ++ [t], queues, ?_, rfl, ?_⟩
      · simp only [processBlocked, hstate, pure_eq_ok]
      · simp [hbl]
      · simpa [hrunning] using hrep
  obtain ⟨s', hrun, d, queues, hbl, rfl, hrep⟩ := hspec
  rw [List.append_nil] at hbl
  subst hbl
  refine ⟨queues, ?_, by simpa using hrep⟩
  rw [processBlockingList, hq.first .blocking]
  exact hrun

theorem fetchTask_nil {s : Sched} {seq : Queue → List TaskId} (hq : s.queues.Represents seq)
    {queue : Queue} (hseq : seq queue = []) : fetchTask queue s = .ok (none, s) := by
  simp only [fetchTask, hq.fetch_nil hseq, ok_bind, pure_eq_ok]

theorem fetchTask_cons {s : Sched} {seq : Queue → List TaskId} (hq : s.queues.Represents seq)
    {queue : Queue} {t : TaskId} {l : List TaskId} (hseq : seq queue = t :: l) :
    ∃ queues, fetchTask queue s = .ok (some t, { s with queues }) ∧
      queues.Represents (Function.update seq queue l) := by
  obtain ⟨queues, hfetch, hrep⟩ := hq.fetch_cons hseq
  exact ⟨queues, by simp only [fetchTask, hfetch, ok_bind, pure_eq_ok], hrep⟩

theorem processExitingList_spec {s : Sched} {r b x : List TaskId} (hq : s.Queued r b x) :
    ∃ queues, processExitingList s = .ok { s with queues } ∧
      queues.Represents (queueLists r b []) := by
  let inv : List TaskId → Sched → Prop := fun l s' => ∃ queues, s' = { s with queues } ∧
    queues.Represents (queueLists r b l)
  obtain ⟨s', hrun, queues, rfl, hrep⟩ : ∃ s', processExitingList s = .ok s' ∧ inv [] s' := by
    refine whileFetch_spec inv ?_ ?_ (Nat.lt_succ_of_le (hq.bound .exiting)) ⟨s.queues, rfl, hq⟩
    · rintro s' ⟨queues, rfl, hrep⟩
      exact ⟨{ s with queues }, fetchTask_nil hrep rfl, queues, rfl, hrep⟩
    · rintro t l s' ⟨queues, rfl, hrep⟩
      obtain ⟨queues', hfetch, hrep'⟩ := fetchTask_cons (s := { s with queues }) hrep
        (show queueLists r b (t :: l) .exiting = t :: l from rfl)
      rw [update_exiting] at hrep'
      exact ⟨_, hfetch, _, false, rfl, queues', rfl, hrep'⟩
  exact ⟨queues, hrun, hrep⟩

theorem processRunningList_spec {s : Sched} {r b x : List TaskId} (hq : s.Queued r b x)
    (hr : ∀ t ∈ r, (s.tasks t).state = .running) :
    ∃ queues, processRunningList s = .ok (r.head?, { s with queues }) ∧
      queues.Represents (queueLists r.tail b x) := by
  cases r with
  | nil =>
    refine ⟨s.queues, ?_, hq⟩
    simp only [processRunningList, whileFetch,
      fetchTask_nil hq (show queueLists [] b x .running = [] from rfl), ok_bind, pure_eq_ok,
      List.head?_nil]
  | cons t r =>
    obtain ⟨queues, hfetch, hrep⟩ := fetchTask_cons hq
      (show queueLists (t :: r) b x .running = t :: r from rfl)
    rw [update_running] at hrep
    refine ⟨queues, ?_, hrep⟩
    simp only [processRunningList, whileFetch, hfetch, ok_bind, pure_eq_ok, hr t (by simp),
      if_true, List.head?_cons]

/-! ## What a dispatch does -/

/-- The current task, if it is in a state. -/
def Sched.currentIn (s : Sched) (state : TaskState) : List TaskId :=
  s.current.toList.filter fun t => (s.tasks t).state = state

/-- The running tasks at a dispatch, with the running list `r` and the blocking
list `b` before it: the first is taken. -/
def Sched.dispatchRunning (s : Sched) (r b : List TaskId) : List TaskId :=
  r ++ s.currentIn .running ++ b.filter s.isRunning

/-- The blocking list behind a dispatch. -/
def Sched.dispatchBlocking (s : Sched) (b : List TaskId) : List TaskId :=
  (b.filter fun t => !s.isRunning t) ++ s.currentIn .interruptible

/-- What the scheduler expects of the lists and the current task at a dispatch. -/
structure Sched.Dispatchable (s : Sched) (r b : List TaskId) : Prop where
  queued : s.Queued r b []
  running : ∀ t ∈ r, (s.tasks t).state = .running
  blocking : ∀ t ∈ b, (s.tasks t).state = .running ∨ (s.tasks t).state = .interruptible
  current : ∀ c, s.current = some c → c ∉ r ∧ c ∉ b ∧
    ((s.tasks c).state = .running ∨ (s.tasks c).state = .interruptible ∨
      (s.tasks c).state = .exiting)
  saved : ∀ t ∈ r ++ b, s.hostCpustate (some t) = true
  savedIdle : s.current = none ∨ s.hostCpustate none = true

/-- The current task goes to the list of its state. -/
theorem Sched.Dispatchable.scheduleCurrent {s : Sched} {r b : List TaskId}
    (h : s.Dispatchable r b) :
    ∃ queues, Hyrule.scheduleCurrent s = .ok { s with queues } ∧
      queues.Represents (queueLists (r ++ s.currentIn .running) (b ++ s.currentIn .interruptible)
        (s.currentIn .exiting)) := by
  rcases Option.eq_none_or_eq_some s.current with hc | ⟨c, hc⟩
  · have hrun : Hyrule.scheduleCurrent s = .ok s := by
      rw [Hyrule.scheduleCurrent, hc]
      rfl
    refine ⟨s.queues, hrun, ?_⟩
    simpa [Sched.currentIn, hc, Sched.Queued] using h.queued
  · obtain ⟨hcr, hcb, hstate⟩ := h.current c hc
    have hout := not_mem_queueLists hcr hcb (List.not_mem_nil)
    have hqueue : ∀ queue, queueOf (s.tasks c).state = some queue →
        ∃ queues, Hyrule.scheduleCurrent s = .ok { s with queues } ∧
          queues.Represents (Function.update (queueLists r b []) queue
            (queueLists r b [] queue ++ [c])) := by
      intro queue hqueue
      obtain ⟨queues, hrun, hrep⟩ := scheduleTask_spec h.queued hout hqueue
      exact ⟨queues, by simp only [Hyrule.scheduleCurrent, hc, hrun], hrep⟩
    rcases hstate with hstate | hstate | hstate
    · obtain ⟨queues, hrun, hrep⟩ := hqueue .running (by simp [hstate, queueOf])
      exact ⟨queues, hrun, by simpa [Sched.currentIn, hc, hstate, queueLists] using hrep⟩
    · obtain ⟨queues, hrun, hrep⟩ := hqueue .blocking (by simp [hstate, queueOf])
      exact ⟨queues, hrun, by simpa [Sched.currentIn, hc, hstate, queueLists] using hrep⟩
    · obtain ⟨queues, hrun, hrep⟩ := hqueue .exiting (by simp [hstate, queueOf])
      exact ⟨queues, hrun, by simpa [Sched.currentIn, hc, hstate, queueLists] using hrep⟩

theorem Sched.mem_currentIn {s : Sched} {state : TaskState} {t : TaskId} :
    t ∈ s.currentIn state ↔ s.current = some t ∧ (s.tasks t).state = state := by
  simp [Sched.currentIn]

theorem Sched.Dispatchable.state_dispatchRunning {s : Sched} {r b : List TaskId}
    (h : s.Dispatchable r b) : ∀ t ∈ s.dispatchRunning r b, (s.tasks t).state = .running := by
  intro t ht
  simp only [Sched.dispatchRunning, List.mem_append, Sched.mem_currentIn, List.mem_filter] at ht
  rcases ht with (ht | ⟨-, ht⟩) | ⟨-, ht⟩
  · exact h.running t ht
  · exact ht
  · simpa [Sched.isRunning] using ht

/-- A dispatch takes the first of the running tasks and returns. -/
theorem userspaceTrapHandler_spec {s : Sched} {r b : List TaskId} (h : s.Dispatchable r b) :
    ∃ queues, userspaceTrapHandler s = .ok { s with
        queues
        current := (s.dispatchRunning r b).head?
        hostCpustate := Function.update s.hostCpustate s.current true } ∧
      queues.Represents (queueLists (s.dispatchRunning r b).tail (s.dispatchBlocking b) []) := by
  let s₀ : Sched := { s with hostCpustate := Function.update s.hostCpustate s.current true }
  have h₀ : s₀.Dispatchable r b :=
    { queued := h.queued
      running := h.running
      blocking := h.blocking
      current := h.current
      saved := fun t ht => by
        show Function.update s.hostCpustate s.current true (some t) = true
        by_cases hc : s.current = some t
        · simp [hc]
        · simp [Function.update_of_ne (Ne.symm hc), h.saved t ht]
      savedIdle := by
        show s.current = none ∨ Function.update s.hostCpustate s.current true none = true
        rcases h.savedIdle with hc | hidle
        · exact Or.inl hc
        · by_cases hc : s.current = none
          · exact Or.inl hc
          · exact Or.inr (by rw [Function.update_of_ne (Ne.symm hc), hidle]) }
  obtain ⟨queues₁, hrun₁, hrep₁⟩ := h₀.scheduleCurrent
  have hblocking : ∀ t ∈ b ++ s.currentIn .interruptible,
      (s.tasks t).state = .running ∨ (s.tasks t).state = .interruptible := by
    intro t ht
    rcases List.mem_append.mp ht with ht | ht
    · exact h.blocking t ht
    · exact Or.inr (Sched.mem_currentIn.mp ht).2
  obtain ⟨queues₂, hrun₂, hrep₂⟩ :=
    processBlockingList_spec (s := { s₀ with queues := queues₁ }) hrep₁ hblocking
  obtain ⟨queues₃, hrun₃, hrep₃⟩ :=
    processExitingList_spec (s := { s₀ with queues := queues₂ }) hrep₂
  have hwoken : (s.currentIn .interruptible).filter s.isRunning = [] := by
    rw [List.filter_eq_nil_iff]
    intro t ht
    simp [Sched.isRunning, (Sched.mem_currentIn.mp ht).2]
  have hslept : (s.currentIn .interruptible).filter (fun t => !s.isRunning t) =
      s.currentIn .interruptible := by
    rw [List.filter_eq_self]
    intro t ht
    simp [Sched.isRunning, (Sched.mem_currentIn.mp ht).2]
  have hrep₃' : queues₃.Represents
      (queueLists (s.dispatchRunning r b) (s.dispatchBlocking b) []) := by
    have : queues₃.Represents (queueLists
        (r ++ s.currentIn .running ++ (b ++ s.currentIn .interruptible).filter s.isRunning)
        ((b ++ s.currentIn .interruptible).filter fun t => !s.isRunning t) []) := hrep₃
    rwa [List.filter_append, List.filter_append, hwoken, hslept, List.append_nil] at this
  obtain ⟨queues₄, hrun₄, hrep₄⟩ := processRunningList_spec (s := { s₀ with queues := queues₃ })
    hrep₃' h.state_dispatchRunning
  refine ⟨queues₄, ?_, hrep₄⟩
  have hsaved : s₀.hostCpustate (s.dispatchRunning r b).head? = true := by
    cases hhead : (s.dispatchRunning r b).head? with
    | none =>
      show Function.update s.hostCpustate s.current true none = true
      rcases h.savedIdle with hc | hidle
      · simp [hc]
      · by_cases hc : s.current = none
        · simp [hc]
        · rw [Function.update_of_ne (Ne.symm hc), hidle]
    | some t =>
      have ht := List.mem_of_head? hhead
      simp only [Sched.dispatchRunning, List.mem_append, Sched.mem_currentIn, List.mem_filter] at ht
      rcases ht with (ht | ⟨hc, -⟩) | ⟨ht, -⟩
      · exact h₀.saved t (List.mem_append_left _ ht)
      · show Function.update s.hostCpustate s.current true (some t) = true
        simp [hc]
      · exact h₀.saved t (List.mem_append_right _ ht)
  show (do
    let s ← Hyrule.scheduleCurrent s₀
    let s ← processBlockingList s
    let s ← processExitingList s
    let (next, s) ← processRunningList s
    check (s.hostCpustate next = true)
    return { s with current := next }) = _
  rw [hrun₁, ok_bind, hrun₂, ok_bind, hrun₃, ok_bind, hrun₄, ok_bind]
  show (do check (s₀.hostCpustate (s.dispatchRunning r b).head? = true); _) = _
  rw [check_true hsaved]
  rfl

end Hyrule
