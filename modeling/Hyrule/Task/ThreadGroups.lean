import Hyrule.Task.Genealogy

/-!
# Thread groups

Pids are handed out in order, and no call but `clone` changes the pid or the tgid of a
task (`Numbered`).  The tgid of a thread is the pid of the task that created it, which
is that of its group leader only if the creator is the leader.  So the threads of a
process have one `getpid` as long as every thread is created by a leader
(`groupLaw_iff`).
-/

namespace Hyrule

open Lib Lib.Result Relation

variable {root : CString} {g g' : Genealogy} {s s' : Forest} {t u p leader : TaskId}

/-- `call_getpid`. -/
def callGetpid (s : Forest) (t : TaskId) : Result Word := do
  let owner ← getLinkedVm s t .native
  return (s.vm owner).tgid

/-- The pid and the tgid of a task. -/
def Vm.ids (vm : Vm) : Word × Word := (vm.pid, vm.tgid)

/-! ## What a call does to pids -/

/-- Every call but `clone` leaves the pids alone. -/
theorem TaskCall.run_sameIds {call : TaskCall}
    (hclone : ∀ args alloc answers, call ≠ .clone args alloc answers)
    (h : call.run s t = .ok s') : SameField Vm.ids s s' :=
  TaskCall.run_sameField (fun _ _ _ _ _ => rfl) (fun _ _ _ _ => rfl) (fun _ _ _ _ => rfl) hclone h

/-- A clone hands out a pid, and a thread has the pid of its creator as its tgid. -/
theorem cloneTask_ids {args : CloneArgs} {alloc : Allocator}
    {answers : Fin maxFilesNr → HostAnswer} {pid : Word}
    (h : s.cloneTask t args alloc answers = .ok (pid, s')) :
    (s'.vm s.nrTasks).ids = (s.gpidCounter,
        if hasFlag args.flags cloneThread then (s.vm t).pid else s.gpidCounter) ∧
      s'.gpidCounter = s.gpidCounter + 1 := by
  obtain ⟨hcounter, hpid, htgid, -⟩ := cloneTask_child h
  exact ⟨by rw [Vm.ids, hpid, htgid], hcounter⟩

/-- The initial task has the first pid, and is a leader. -/
theorem applicationSandboxInit_ids {boot : Boot} {alloc : Allocator}
    (h : applicationSandboxInit boot alloc = .ok s) :
    (s.vm 0).ids = (1, 1) ∧ s.gpidCounter = 2 := by
  obtain ⟨s₁, hload, h⟩ := bind_eq_ok.mp h
  obtain ⟨root, -, h⟩ := bind_eq_ok.mp h
  obtain ⟨name, -, h⟩ := bind_eq_ok.mp h
  obtain ⟨files, -, h⟩ := bind_eq_ok.mp h
  cases h
  have hids : SameField Vm.ids _ s₁ := loadTask_sameField (fun _ _ _ => rfl) hload
  have hcounter : s₁.gpidCounter = 1 := hids.counter
  simp only [Vm.ids, Forest.setVm, Function.update_self, hcounter]
  exact ⟨trivial, by decide⟩

/-! ## Pids and tgids in every run -/

/-- The task was cloned with `CLONE_THREAD`. -/
def Genealogy.isThread (g : Genealogy) (t : TaskId) : Bool := hasFlag (g.flags t) cloneThread

theorem isThread_zero : hasFlag 0 cloneThread = false := by decide

/-- Pids count the tasks, and the tgid of a thread is the pid of its parent. -/
structure Numbered (g : Genealogy) : Prop where
  pid : ∀ t, t < g.forest.nrTasks → (g.forest.vm t).pid = BitVec.ofNat 32 (t + 1)
  counter : g.forest.gpidCounter = BitVec.ofNat 32 (g.forest.nrTasks + 1)
  leader : ∀ t, t < g.forest.nrTasks → g.isThread t = false →
    (g.forest.vm t).tgid = (g.forest.vm t).pid
  thread : ∀ t p, t < g.forest.nrTasks → g.isThread t = true →
    (g.forest.vm t).links.parent = some p → (g.forest.vm t).tgid = (g.forest.vm p).pid

theorem numbered_init (h : (genealogyRuns root).init g) : Numbered g := by
  obtain ⟨⟨boot, alloc, -, hboot⟩, hflags⟩ := h
  obtain ⟨hids, hcounter⟩ := applicationSandboxInit_ids hboot
  obtain ⟨-, hnr, -, -⟩ := applicationSandboxInit_ok hboot
  obtain ⟨hpid, htgid⟩ := Prod.mk.inj hids
  have hthread : ∀ t, g.isThread t = false := by
    intro t
    rw [Genealogy.isThread, hflags]
    exact isThread_zero
  refine ⟨fun t ht => ?_, by rw [hcounter, hnr]; decide, fun t ht _ => ?_, fun t p _ htrue => ?_⟩
  · obtain rfl : t = 0 := by omega
    exact hpid
  · obtain rfl : t = 0 := by omega
    exact htgid.trans hpid.symm
  · rw [hthread t] at htrue
    cases htrue

theorem Numbered.sameIds (h : Numbered g) (hids : SameField Vm.ids g.forest g'.forest)
    (hnr : g'.forest.nrTasks = g.forest.nrTasks)
    (hlinks : ∀ u, (g'.forest.vm u).links = (g.forest.vm u).links)
    (hflags : g'.flags = g.flags) : Numbered g' := by
  have hpid : ∀ u, (g'.forest.vm u).pid = (g.forest.vm u).pid :=
    fun u => congrArg Prod.fst (hids.same u)
  have htgid : ∀ u, (g'.forest.vm u).tgid = (g.forest.vm u).tgid :=
    fun u => congrArg Prod.snd (hids.same u)
  refine ⟨fun t ht => ?_, ?_, fun t ht hthread => ?_, fun t p ht hthread hparent => ?_⟩
  · rw [hpid]
    exact h.pid t (by rwa [← hnr])
  · rw [hids.counter, hnr]
    exact h.counter
  · rw [htgid, hpid]
    rw [Genealogy.isThread, hflags] at hthread
    exact h.leader t (by rwa [← hnr]) hthread
  · rw [htgid, hpid]
    rw [Genealogy.isThread, hflags] at hthread
    rw [hlinks] at hparent
    exact h.thread t p (by rwa [← hnr]) hthread hparent

theorem Numbered.clone (h : Numbered g) (hg : Recorded g) {args : CloneArgs} {alloc : Allocator}
    {answers : Fin maxFilesNr → HostAnswer} {pid : Word} (ht : t < g.forest.nrTasks)
    (hclone : g.forest.cloneTask t args alloc answers = .ok (pid, g'.forest))
    (hflags : g'.flags = Function.update g.flags g.forest.nrTasks args.flags) :
    Numbered g' := by
  have hc := cloneTask_ok hclone
  obtain ⟨hids, hcounter⟩ := cloneTask_ids hclone
  obtain ⟨hchild, htgid⟩ := Prod.mk.inj hids
  have hold : ∀ u, u ≠ g.forest.nrTasks → (g'.forest.vm u).ids = (g.forest.vm u).ids ∧
      (g'.forest.vm u).links = (g.forest.vm u).links ∧ g'.isThread u = g.isThread u := by
    intro u hu
    obtain ⟨refCount, heq⟩ := hc.others u hu
    rw [heq, Genealogy.isThread, hflags, Function.update_of_ne hu]
    exact ⟨rfl, rfl, rfl⟩
  have hpid : ∀ u, u ≠ g.forest.nrTasks → (g'.forest.vm u).pid = (g.forest.vm u).pid :=
    fun u hu => congrArg Prod.fst (hold u hu).1
  have hnew : g'.isThread g.forest.nrTasks = hasFlag args.flags cloneThread := by
    rw [Genealogy.isThread, hflags, Function.update_self]
  have hlt : ∀ {u}, u < g'.forest.nrTasks → u ≠ g.forest.nrTasks → u < g.forest.nrTasks := by
    intro u hu hne
    rw [hc.nrTasks] at hu
    omega
  refine ⟨fun u hu => ?_, ?_, fun u hu hthread => ?_, fun u p hu hthread hparent => ?_⟩
  · by_cases hne : u = g.forest.nrTasks
    · rw [hne, hchild, h.counter]
    · rw [hpid u hne]
      exact h.pid u (hlt hu hne)
  · rw [hcounter, h.counter, hc.nrTasks]
    exact (BitVec.ofNat_add (g.forest.nrTasks + 1) 1).symm
  · by_cases hne : u = g.forest.nrTasks
    · rw [hne, hnew] at hthread
      rw [hne, htgid, hchild, hthread]
      rfl
    · rw [(hold u hne).2.2] at hthread
      rw [hpid u hne, ← h.leader u (hlt hu hne) hthread]
      exact congrArg Prod.snd (hold u hne).1
  · by_cases hne : u = g.forest.nrTasks
    · rw [hne, hnew] at hthread
      rw [hne, hc.links] at hparent
      obtain rfl : t = p := Option.some.inj hparent
      rw [hne, htgid, hthread, if_pos rfl, hpid t (Nat.ne_of_lt ht)]
    · rw [(hold u hne).2.2] at hthread
      rw [(hold u hne).2.1] at hparent
      have hp := hg.parent_lt u p hparent
      rw [hpid p (Nat.ne_of_lt (hp.trans (hlt hu hne))),
        ← h.thread u p (hlt hu hne) hthread hparent]
      exact congrArg Prod.snd (hold u hne).1

theorem numbered_of_reachable (h : (genealogyRuns root).Reachable g) :
    Recorded g ∧ Numbered g := by
  induction h with
  | init h => exact ⟨recorded_init h, numbered_init h⟩
  | @step g g' call hreach hstep ih =>
    refine ⟨recorded_of_reachable (hreach.step hstep), ?_⟩
    obtain ⟨hg, hnumbered⟩ := ih
    rcases genealogy_step_cases hg.toWellFormed hstep with
      ⟨args, alloc, answers, pid, -, hclone, hflags⟩ | ⟨hnot, hk, hflags⟩
    · exact hnumbered.clone hg hstep.1.1 hclone hflags
    · exact hnumbered.sameIds (TaskCall.run_sameIds hnot hstep.1.2) hk.nrTasks hk.links hflags

/-! ## Groups -/

/-- A task is a leader, or was created from the leader by threads that create threads. -/
structure Genealogy.LeaderOf (g : Genealogy) (t leader : TaskId) : Prop where
  chain : ReflTransGen (fun t p => (g.forest.vm t).links.parent = some p ∧ g.isThread t = true)
    t leader
  leads : g.isThread leader = false

/-- The tgid of a task is the pid of its leader, which `getpid` returns, and groups have
different tgids. -/
structure GroupLaw (g : Genealogy) : Prop where
  tgid : ∀ t leader, t < g.forest.nrTasks → g.LeaderOf t leader →
    (g.forest.vm t).tgid = (g.forest.vm leader).pid ∧
      callGetpid g.forest t = .ok (g.forest.vm leader).pid
  distinct : ∀ t u leader leader', t < g.forest.nrTasks → u < g.forest.nrTasks →
    g.LeaderOf t leader → g.LeaderOf u leader' → leader ≠ leader' →
    (g.forest.vm t).tgid ≠ (g.forest.vm u).tgid

/-- Every thread was created by a task that is not a thread. -/
def Genealogy.ThreadsOfLeaders (g : Genealogy) : Prop :=
  ∀ t p, t < g.forest.nrTasks → g.isThread t = true →
    (g.forest.vm t).links.parent = some p → g.isThread p = false

theorem Recorded.callGetpid_eq (h : Recorded g) (ht : t < g.forest.nrTasks) :
    callGetpid g.forest t = .ok (g.forest.vm t).tgid := by
  rw [callGetpid, h.toWellFormed.getLinkedVm_self .native ht rfl]
  rfl

theorem Numbered.pid_inj (h : Numbered g) (hn : g.forest.nrTasks < 2 ^ 32)
    (ht : t < g.forest.nrTasks) (hu : u < g.forest.nrTasks)
    (heq : (g.forest.vm t).pid = (g.forest.vm u).pid) : t = u := by
  rw [h.pid t ht, h.pid u hu] at heq
  exact ofNat_succ_inj hn ht hu heq

/-- Every task has a leader. -/
theorem Recorded.exists_leader (h : Recorded g) (t : TaskId) (ht : t < g.forest.nrTasks) :
    ∃ leader, g.LeaderOf t leader := by
  induction t using Nat.strong_induction_on with
  | _ t ih =>
    cases hthread : g.isThread t with
    | false => exact ⟨t, .refl, hthread⟩
    | true =>
      have hpos : 0 < t := by
        refine Nat.pos_of_ne_zero fun hzero => ?_
        rw [hzero, Genealogy.isThread, h.initial, isThread_zero] at hthread
        cases hthread
      obtain ⟨p, hparent⟩ := h.parent t hpos ht
      have hp := h.parent_lt t p hparent
      obtain ⟨leader, hleader⟩ := ih p hp (hp.trans ht)
      exact ⟨leader, .head ⟨hparent, hthread⟩ hleader.chain, hleader.leads⟩

theorem Recorded.leader_lt (h : Recorded g) (ht : t < g.forest.nrTasks)
    (hleader : g.LeaderOf t leader) : leader < g.forest.nrTasks := by
  obtain ⟨hchain, -⟩ := hleader
  induction hchain with
  | refl => exact ht
  | tail _ hstep ih => exact (h.parent_lt _ _ hstep.1).trans ih

/-- Where leaders create all threads, the tgid is the pid of the leader. -/
theorem Numbered.tgid_eq (h : Numbered g) (hthreads : g.ThreadsOfLeaders)
    (ht : t < g.forest.nrTasks) (hleader : g.LeaderOf t leader) :
    (g.forest.vm t).tgid = (g.forest.vm leader).pid := by
  obtain ⟨hchain, hleads⟩ := hleader
  cases hchain.cases_head with
  | inl heq =>
    subst heq
    exact h.leader t ht hleads
  | inr hstep =>
    obtain ⟨p, ⟨hparent, hthread⟩, hrest⟩ := hstep
    -- The creator is a leader, so the chain ends there.
    cases hrest.cases_head with
    | inl heq =>
      subst heq
      exact h.thread t p ht hthread hparent
    | inr hstep' =>
      obtain ⟨q, ⟨-, hcreator⟩, -⟩ := hstep'
      rw [hthreads t p ht hthread hparent] at hcreator
      cases hcreator

/-- Threads have the identity of their group exactly if leaders created them all. -/
theorem groupLaw_iff (h : (genealogyRuns root).Reachable g) (hn : g.forest.nrTasks < 2 ^ 32) :
    GroupLaw g ↔ g.ThreadsOfLeaders := by
  obtain ⟨hg, hnumbered⟩ := numbered_of_reachable h
  constructor
  · intro hlaw t p ht hthread hparent
    have hp : p < g.forest.nrTasks := (hg.parent_lt t p hparent).trans ht
    obtain ⟨leader, hleader⟩ := hg.exists_leader p hp
    have htLeader : g.LeaderOf t leader :=
      ⟨.head ⟨hparent, hthread⟩ hleader.chain, hleader.leads⟩
    have htgid := (hlaw.tgid t leader ht htLeader).1
    rw [hnumbered.thread t p ht hthread hparent] at htgid
    rw [hnumbered.pid_inj hn hp (hg.leader_lt hp hleader) htgid]
    exact hleader.leads
  · intro hthreads
    have htgid : ∀ t leader, t < g.forest.nrTasks → g.LeaderOf t leader →
        (g.forest.vm t).tgid = (g.forest.vm leader).pid :=
      fun t leader ht hleader => hnumbered.tgid_eq hthreads ht hleader
    refine ⟨fun t leader ht hleader => ⟨htgid t leader ht hleader, ?_⟩, ?_⟩
    · rw [hg.callGetpid_eq ht, htgid t leader ht hleader]
    · intro t u leader leader' ht hu hleader hleader' hne heq
      rw [htgid t leader ht hleader, htgid u leader' hu hleader'] at heq
      exact hne (hnumbered.pid_inj hn (hg.leader_lt ht hleader) (hg.leader_lt hu hleader') heq)

/-! ## Runs -/

/-- A clone with `CLONE_THREAD` is called by a task that is not a thread. -/
def ClonedByLeader (g : Genealogy) (call : TaskId × TaskCall) : Prop :=
  ∀ args alloc answers, call.2 = .clone args alloc answers →
    hasFlag args.flags cloneThread = true → g.isThread call.1 = false

theorem threadsOfLeaders_of_run (h : ((genealogyRuns root).restrict ClonedByLeader).Reachable g) :
    g.ThreadsOfLeaders := by
  induction h with
  | init h =>
    obtain ⟨-, hflags⟩ := h
    intro t p _ hthread
    rw [Genealogy.isThread, hflags, isThread_zero] at hthread
    cases hthread
  | @step g g' call hreach hstep ih =>
    obtain ⟨t, call⟩ := call
    obtain ⟨hleader, hstep⟩ := hstep
    have hg := recorded_of_reachable hreach.of_restrict
    intro u p hu hthread hparent
    rcases genealogy_step_cases hg.toWellFormed hstep with
      ⟨args, alloc, answers, pid, rfl, hclone, hflags⟩ | ⟨-, hk, hflags⟩
    · have hc := cloneTask_ok hclone
      simp only [Genealogy.isThread, hflags] at hthread ⊢
      by_cases hne : u = g.forest.nrTasks
      · rw [hne, Function.update_self] at hthread
        rw [hne, hc.links] at hparent
        obtain rfl : t = p := Option.some.inj hparent
        rw [Function.update_of_ne (Nat.ne_of_lt hstep.1.1)]
        exact hleader args alloc answers rfl hthread
      · obtain ⟨refCount, heq⟩ := hc.others u hne
        rw [heq] at hparent
        rw [Function.update_of_ne hne] at hthread
        rw [hc.nrTasks] at hu
        have hlt : u < g.forest.nrTasks := Nat.lt_of_le_of_ne (Nat.le_of_lt_succ hu) hne
        have hp := (hg.parent_lt u p hparent).trans hlt
        rw [Function.update_of_ne (Nat.ne_of_lt hp)]
        exact ih u p hlt hthread hparent
    · rw [Genealogy.isThread, hflags] at hthread ⊢
      rw [hk.nrTasks] at hu
      rw [hk.links] at hparent
      exact ih u p hu hthread hparent

/-- In every run in which only leaders create threads, the threads of a process have the pid
of its leader as their tgid, which `getpid` returns, and processes have different ones. -/
theorem threadGroups_of_run (h : ((genealogyRuns root).restrict ClonedByLeader).Reachable g)
    (hn : g.forest.nrTasks < 2 ^ 32) : GroupLaw g :=
  (groupLaw_iff h.of_restrict hn).mpr (threadsOfLeaders_of_run h)

/-- The arguments of `clone` for a thread that shares everything. -/
def threadArgs : CloneArgs :=
  ⟨cloneVm ||| cloneFs ||| cloneFiles ||| cloneThread, 0x1000, 0, 0, 0⟩

/-- The flags after two threads. -/
def threadFlags : TaskId → Word :=
  Function.update (Function.update (fun _ => 0) 1 threadArgs.flags) 2 threadArgs.flags

/-- The initial task creates a thread. -/
theorem threadGroups_of_run_thread :
    ∃ g, ((genealogyRuns slashX).restrict ClonedByLeader).Reachable g ∧
      g.forest.nrTasks = 2 ∧ g.isThread 1 = true ∧ GroupLaw g := by
  have hrun : (do
      let s₀ ← applicationSandboxInit (bareBoot slashX) (.lowest 8)
      let s ← TaskCall.run s₀ 0 (.clone threadArgs (.lowest 8) fun _ => .returns 6)
      return (s₀.nrTasks, s.nrTasks)) = .ok (1, 2) := by
    decide +kernel
  simp only [bind_eq_ok, pure_eq_ok, Except.ok.injEq, Prod.mk.injEq] at hrun
  obtain ⟨s₀, hboot, s, hclone, hnr₀, hnr⟩ := hrun
  have hinit : ((genealogyRuns slashX).restrict ClonedByLeader).Reachable ⟨s₀, fun _ => 0⟩ :=
    .init ⟨⟨_, _, rfl, hboot⟩, rfl⟩
  have hreach : ((genealogyRuns slashX).restrict ClonedByLeader).Reachable
      ⟨s, Function.update (fun _ => 0) s₀.nrTasks threadArgs.flags⟩ :=
    hinit.step (a := (0, _))
      ⟨fun _ _ _ _ _ => isThread_zero, ⟨by rw [hnr₀]; decide, hclone⟩, rfl⟩
  refine ⟨_, hreach, hnr, ?_, threadGroups_of_run hreach (by rw [hnr]; decide)⟩
  rw [Genealogy.isThread, hnr₀]
  exact (by decide : hasFlag threadArgs.flags cloneThread = true)

/-- A thread creates a thread, which has another `getpid` than their process. -/
theorem thread_of_thread_leaves_group :
    ∃ g, (genealogyRuns slashX).Reachable g ∧ g.forest.nrTasks = 3 ∧ g.LeaderOf 2 0 ∧
      callGetpid g.forest 2 = .ok 2 ∧ callGetpid g.forest 0 = .ok 1 ∧ ¬ GroupLaw g := by
  have hrun : (do
      let s₀ ← applicationSandboxInit (bareBoot slashX) (.lowest 8)
      let s₁ ← TaskCall.run s₀ 0 (.clone threadArgs (.lowest 8) fun _ => .returns 6)
      let s ← TaskCall.run s₁ 1 (.clone threadArgs (.lowest 8) fun _ => .returns 6)
      let getpids := [← callGetpid s 2, ← callGetpid s 0]
      return ([s₀.nrTasks, s₁.nrTasks, s.nrTasks],
        [(s.vm 2).links.parent, (s.vm 1).links.parent], getpids)) =
      .ok ([1, 2, 3], [some 1, some 0], [2, 1]) := by
    decide +kernel
  simp only [bind_eq_ok, pure_eq_ok, Except.ok.injEq, Prod.mk.injEq, List.cons.injEq,
    and_true] at hrun
  obtain ⟨s₀, hboot, s₁, hclone₁, s, hclone, pid₂, hgetpid, pid₀, hgetpid₀,
    ⟨hnr₀, hnr₁, hnr⟩, ⟨hparent₂, hparent₁⟩, rfl, rfl⟩ := hrun
  have hinit : (genealogyRuns slashX).Reachable ⟨s₀, fun _ => 0⟩ :=
    .init ⟨⟨_, _, rfl, hboot⟩, rfl⟩
  have hreach₁ : (genealogyRuns slashX).Reachable
      ⟨s₁, Function.update (fun _ => 0) s₀.nrTasks threadArgs.flags⟩ :=
    hinit.step (a := (0, _)) ⟨⟨by rw [hnr₀]; decide, hclone₁⟩, rfl⟩
  have hreach : (genealogyRuns slashX).Reachable ⟨s, threadFlags⟩ := by
    refine hreach₁.step (a := (1, _)) ⟨⟨by rw [hnr₁]; decide, hclone⟩, ?_⟩
    rw [Genealogy.record, hnr₀, hnr₁]
    rfl
  have hthreads : hasFlag (threadFlags 2) cloneThread = true ∧
      hasFlag (threadFlags 1) cloneThread = true ∧ hasFlag (threadFlags 0) cloneThread = false := by
    decide
  obtain ⟨hthread₂, hthread₁, hleads⟩ := hthreads
  have hleader : Genealogy.LeaderOf ⟨s, threadFlags⟩ 2 0 :=
    ⟨.head ⟨hparent₂, hthread₂⟩ (.head ⟨hparent₁, hthread₁⟩ .refl), hleads⟩
  refine ⟨_, hreach, hnr, hleader, hgetpid, hgetpid₀, fun hlaw => ?_⟩
  have hself : Genealogy.LeaderOf ⟨s, threadFlags⟩ 0 0 := ⟨.refl, hleads⟩
  have hlaw₂ := (hlaw.tgid 2 0 (by rw [hnr]; decide) hleader).2
  have hlaw₀ := (hlaw.tgid 0 0 (by rw [hnr]; decide) hself).2
  rw [← hlaw₀, hgetpid, hgetpid₀] at hlaw₂
  exact absurd hlaw₂ (by decide)

end Hyrule
