import Hyrule.Sched.Safety

/-!
# Children are reaped once

`call_wait4` chooses what it returns in two scans, and its task may sleep between
them.  What it returns is a child of the caller, since only the parent has the pid
that the scans ask for, and no other task can take the child off the task list in
the meantime.  A task that sleeps is woken by the exit of a child that it waits for,
so it does not return empty-handed.

`Sched.Sound` is the invariant, over the history of exits and returns that `reapRuns`
records.  `wait4_reaps_once` is the result.
-/

namespace Hyrule

open Lib Lib.Result

/-! ## Runs with their history -/

/-- A return of `call_wait4`. -/
structure Wait4Return where
  caller : TaskId
  pidHint : Word
  /-- The call blocked before it returned. -/
  blocked : Bool
  ret : Word

/-- What a step returns from `call_wait4`. -/
def Sched.returns (s : Sched) : TaskAction → Option Wait4Return
  | .wait4 pidHint options => do
      let c ← s.current
      let (ret, _) ← (callWait4 s c pidHint options).toOption
      return ⟨c, pidHint, false, ← ret⟩
  | .resume => do
      let c ← s.current
      let wait ← s.pending c
      let (ret, _) ← (resumeWait4 s c wait).toOption
      return ⟨c, wait.pidHint, true, ret⟩
  | .clone _ | .exit | .yield => none

/-- The task that calls `do_exit` in a step. -/
def Sched.exits (s : Sched) : TaskAction → List TaskId
  | .exit => s.current.toList
  | _ => []

/-- A state, the tasks that have called `do_exit`, and what `call_wait4` has returned. -/
structure Reaping where
  sched : Sched
  exits : List TaskId
  returned : List Wait4Return

/-- The runs of the scheduler with their history. -/
def reapRuns : System Reaping TaskAction where
  init h := schedRuns.init h.sched ∧ h.exits = [] ∧ h.returned = []
  step h action h' := schedRuns.step h.sched action h'.sched ∧
    h'.exits = h.exits ++ h.sched.exits action ∧
    h'.returned = h.returned ++ (h.sched.returns action).toList

/-! ## Pids -/

/-- Pids count the tasks, and children have the pid of their parent. -/
structure Sched.Numbered (s : Sched) : Prop where
  pid : ∀ t, t < s.nrTasks → (s.tasks t).pid = BitVec.ofNat 32 (t + 1)
  counter : s.gpidCounter = BitVec.ofNat 32 (s.nrTasks + 1)
  parent : ∀ t p, t < s.nrTasks → (s.tasks t).parent = some p →
    p < s.nrTasks ∧ (s.tasks t).ppid = (s.tasks p).pid
  orphan : ∀ t, t < s.nrTasks → (s.tasks t).parent = none → (s.tasks t).ppid = (s.tasks t).pid
  unstopped : ∀ t, (s.tasks t).waitStateStopped = false ∧ (s.tasks t).waitStateContinued = false

variable {s s' : Sched} {r b g : List TaskId} {w k : TaskId → List BlobId} {c t u : TaskId}
  {pidHint options : Word} {exits : List TaskId} {returned : List Wait4Return}

theorem Sched.Numbered.pid_inj (h : s.Numbered) (hn : s.nrTasks < 2 ^ 31) (ht : t < s.nrTasks)
    (hu : u < s.nrTasks) (heq : (s.tasks t).pid = (s.tasks u).pid) : t = u := by
  rw [h.pid t ht, h.pid u hu] at heq
  exact ofNat_succ_inj (Nat.lt_trans hn (by decide)) ht hu heq

theorem Sched.Numbered.pid_pos (h : s.Numbered) (hn : s.nrTasks < 2 ^ 31) (ht : t < s.nrTasks) :
    0 < (s.tasks t).pid.toInt := by
  have htoNat := toNat_ofNat_succ (Nat.lt_trans hn (by decide)) ht
  have hbound : t + 1 < 2 ^ 31 := Nat.lt_of_le_of_lt ht hn
  rw [h.pid t ht, BitVec.toInt_eq_toNat_of_lt, htoNat]
  · exact Int.natCast_pos.mpr (Nat.succ_pos t)
  · rw [htoNat, Nat.mul_comm]
    exact Nat.mul_lt_mul_of_pos_right hbound (by decide)

theorem isToWait_ppid {vm child : Task} (h : isToWait vm child pidHint = true) :
    vm.pid = child.ppid ∧ vm.pid ≠ child.pid := by
  unfold isToWait at h
  split at h
  next => cases h
  next hnot => simpa only [ne_eq, not_or, not_not] using hnot

/-- What a task waits for was cloned by it. -/
theorem Sched.Numbered.parent_of_matching (h : s.Numbered) (hn : s.nrTasks < 2 ^ 31)
    (hc : c < s.nrTasks) (ht : t < s.nrTasks) (hmatch : s.matching c pidHint t = true) :
    (s.tasks t).parent = some c := by
  obtain ⟨hppid, hself⟩ := isToWait_ppid hmatch
  cases hparent : (s.tasks t).parent with
  | none =>
    rw [h.orphan t ht hparent] at hppid
    exact absurd hppid hself
  | some p =>
    obtain ⟨hp, heq⟩ := h.parent t p ht hparent
    rw [h.pid_inj hn hc hp (hppid.trans heq)]

/-- The tasks differ in their states and in whether they have exited. -/
structure Sched.SameIds (s s' : Sched) : Prop where
  nrTasks : s'.nrTasks = s.nrTasks
  counter : s'.gpidCounter = s.gpidCounter
  tasks : ∀ t, ∃ state waitStateExited,
    s'.tasks t = { s.tasks t with state, waitStateExited }

theorem Sched.SameIds.matching (h : s.SameIds s') (c : TaskId) (pidHint : Word) (t : TaskId) :
    s'.matching c pidHint t = s.matching c pidHint t := by
  obtain ⟨_, _, hc⟩ := h.tasks c
  obtain ⟨_, _, ht⟩ := h.tasks t
  rw [Sched.matching, Sched.matching, hc, ht]
  rfl

theorem Sched.SameIds.pid (h : s.SameIds s') (t : TaskId) :
    (s'.tasks t).pid = (s.tasks t).pid := by
  obtain ⟨_, _, ht⟩ := h.tasks t
  rw [ht]

theorem Sched.Numbered.sameIds (h : s.Numbered) (hids : s.SameIds s') : s'.Numbered := by
  refine ⟨fun t ht => ?_, ?_, fun t p ht hparent => ?_, fun t ht hparent => ?_, fun t => ?_⟩
  · rw [hids.pid]
    exact h.pid t (hids.nrTasks ▸ ht)
  · rw [hids.counter, hids.nrTasks]
    exact h.counter
  · obtain ⟨_, _, heq⟩ := hids.tasks t
    rw [heq] at hparent ⊢
    rw [hids.nrTasks] at ht ⊢
    rw [hids.pid]
    exact h.parent t p ht hparent
  · obtain ⟨_, _, heq⟩ := hids.tasks t
    rw [heq] at hparent ⊢
    rw [hids.nrTasks] at ht
    exact h.orphan t ht hparent
  · obtain ⟨_, _, heq⟩ := hids.tasks t
    rw [heq]
    exact h.unstopped t

theorem Sched.Numbered.clone (h : s.Numbered) (hc : c < s.nrTasks) (flags : Word)
    (queues : ListHeap Queue TaskId) (globalTasks : ListHeap Unit TaskId)
    (waitQueues : ListHeap TaskId BlobId) :
    (s.cloned c flags queues globalTasks waitQueues).Numbered := by
  have hold : ∀ t, t ≠ s.nrTasks →
      (s.cloned c flags queues globalTasks waitQueues).tasks t = s.tasks t :=
    fun t ht => Function.update_of_ne ht _ _
  have hnew : (s.cloned c flags queues globalTasks waitQueues).tasks s.nrTasks =
      childTask s c flags := Function.update_self _ _ _
  have hlt : ∀ {t}, t < s.nrTasks + 1 → t ≠ s.nrTasks → t < s.nrTasks := fun ht hne =>
    Nat.lt_of_le_of_ne (Nat.le_of_lt_succ ht) hne
  refine ⟨fun t ht => ?_, ?_, fun t p ht hparent => ?_, fun t ht hparent => ?_, fun t => ?_⟩
  · by_cases hne : t = s.nrTasks
    · rw [hne, hnew]
      exact h.counter
    · rw [hold t hne]
      exact h.pid t (hlt ht hne)
  · show s.gpidCounter + 1 = BitVec.ofNat 32 (s.nrTasks + 1 + 1)
    rw [h.counter]
    exact (BitVec.ofNat_add (s.nrTasks + 1) 1).symm
  · by_cases hne : t = s.nrTasks
    · rw [hne, hnew] at hparent ⊢
      obtain rfl : c = p := Option.some.inj hparent
      refine ⟨Nat.lt_succ_of_lt hc, ?_⟩
      rw [hold c (Nat.ne_of_lt hc)]
      rfl
    · rw [hold t hne] at hparent ⊢
      obtain ⟨hp, heq⟩ := h.parent t p (hlt ht hne) hparent
      rw [hold p (Nat.ne_of_lt hp)]
      exact ⟨Nat.lt_succ_of_lt hp, heq⟩
  · by_cases hne : t = s.nrTasks
    · rw [hne, hnew] at hparent
      cases hparent
    · rw [hold t hne] at hparent ⊢
      exact h.orphan t (hlt ht hne) hparent
  · by_cases hne : t = s.nrTasks
    · rw [hne, hnew]
      exact ⟨rfl, rfl⟩
    · rw [hold t hne]
      exact h.unstopped t

/-! ## The invariant -/

/-- A task that the end of `wait4` may return: it is registered, has exited, and matches. -/
structure Sched.Reapable (s : Sched) (g : List TaskId) (c : TaskId) (pidHint : Word)
    (t : TaskId) : Prop where
  registered : t ∈ g
  matching : s.matching c pidHint t = true
  exited : (s.tasks t).waitStateExited = true

/-- What the history of a run has to do with its state. -/
structure Sched.Sound (s : Sched) (exits : List TaskId) (returned : List Wait4Return)
    (g : List TaskId) (k : TaskId → List BlobId) : Prop extends s.Numbered where
  exited : ∀ t, (s.tasks t).waitStateExited = true → t ∈ exits
  /-- Who was returned is off the task list. -/
  reaped : ∀ old ∈ returned, 0 < old.ret.toInt →
    ∃ t, t < s.nrTasks ∧ (s.tasks t).pid = old.ret ∧ t ∉ g
  /-- What the first scan has found is still there. -/
  found : ∀ c wait, s.pending c = some wait → 0 < wait.ret.toInt →
    ∃ t, wait.target = some t ∧ wait.ret = (s.tasks t).pid ∧ s.Reapable g c wait.pidHint t
  awaited : ∀ c wait, s.pending c = some wait → ∀ t ∈ s.awaited k c,
    t ∈ g ∧ s.matching c wait.pidHint t = true
  /-- A task in `wait4` that does not sleep has something to return. -/
  woken : ∀ c wait, s.pending c = some wait → (s.tasks c).state ≠ .interruptible →
    0 < wait.ret.toInt ∨ ∃ t ∈ s.awaited k c, (s.tasks t).waitStateExited = true

/-- The tasks that are waited for by others are not the one that is reaped. -/
theorem Sched.Sound.ne_of_matching (h : s.Sound exits returned g k) (hcons : s.Consistent r b g w k)
    (hn : s.nrTasks < 2 ^ 31) (hc : c < s.nrTasks) {c' : TaskId} {wait : PendingWait}
    (hne : c' ≠ c) (hp : s.pending c' = some wait) (ht : t ∈ g)
    (hmatch : s.matching c pidHint t = true) (hu : u ∈ g)
    (hmatch' : s.matching c' wait.pidHint u = true) : u ≠ t := by
  rintro rfl
  have hc' : c' < s.nrTasks := (hcons.waiting c' (by rw [hp]; exact Option.some_ne_none wait)).1
  have hlt := hcons.created u hu
  have hparent := h.parent_of_matching hn hc hlt hmatch
  have hparent' := h.parent_of_matching hn hc' hlt hmatch'
  exact hne (Option.some.inj (hparent'.symm.trans hparent))

/-- A task is taken off the task list by its parent, which is outside `wait4` afterwards. -/
theorem Sched.Sound.reap (h : s.Sound exits returned g k) (hcons : s.Consistent r b g w k)
    (hn : s.nrTasks < 2 ^ 31) (hc : c < s.nrTasks) (k' : TaskId → List BlobId)
    (hids : s.SameIds s') (htasks : s'.tasks = s.tasks)
    (hpending : ∀ c' wait, s'.pending c' = some wait → c' ≠ c ∧ s.pending c' = some wait)
    (hawaited : ∀ c', c' ≠ c → s'.awaited k' c' = s.awaited k c') (ret : Wait4Return)
    {target : Option TaskId}
    (hret : 0 < ret.ret.toInt → ∃ t, target = some t ∧ ret.ret = (s.tasks t).pid ∧
      s.Reapable g c pidHint t) :
    s'.Sound exits (returned ++ [ret]) (reapedList g (ret.ret, target)) k' := by
  have hsub := reapedList_sublist g (ret.ret, target)
  -- Whoever another task waits for stays registered.
  have hstays : ∀ c' wait, s'.pending c' = some wait → ∀ u ∈ g,
      s.matching c' wait.pidHint u = true → u ∈ reapedList g (ret.ret, target) := by
    intro c' wait hp u hu hmatch
    obtain ⟨hne, hp⟩ := hpending c' wait hp
    by_cases hpos : 0 < ret.ret.toInt
    · obtain ⟨t, rfl, -, hreap⟩ := hret hpos
      rw [reapedList, if_pos hpos]
      have hut := h.ne_of_matching hcons hn hc hne hp hreap.registered hreap.matching hu hmatch
      exact (List.mem_erase_of_ne hut).mpr hu
    · rwa [reapedList, if_neg hpos]
  refine ⟨h.toNumbered.sameIds hids, fun t ht => ?_, fun old hold hpos => ?_,
    fun c' wait hp hpos => ?_, fun c' wait hp t ht => ?_, fun c' wait hp hstate => ?_⟩
  · rw [htasks] at ht
    exact h.exited t ht
  · rw [hids.nrTasks, htasks]
    rcases List.mem_append.mp hold with hold | hold
    · obtain ⟨t, hlt, hpid, hout⟩ := h.reaped old hold hpos
      exact ⟨t, hlt, hpid, fun ht => hout (hsub.subset ht)⟩
    · rw [List.mem_singleton.mp hold] at hpos ⊢
      obtain ⟨t, rfl, hpid, hreap⟩ := hret hpos
      refine ⟨t, hcons.created t hreap.registered, hpid.symm, ?_⟩
      rw [reapedList, if_pos hpos]
      exact (hcons.registered.nodup ()).not_mem_erase
  · obtain ⟨hne, hp'⟩ := hpending c' wait hp
    obtain ⟨t, htarget, hpid, hreap⟩ := h.found c' wait hp' hpos
    refine ⟨t, htarget, by rw [htasks, hpid], hstays c' wait hp t hreap.registered hreap.matching,
      ?_, by rw [htasks, hreap.exited]⟩
    rw [hids.matching]
    exact hreap.matching
  · obtain ⟨hne, hp'⟩ := hpending c' wait hp
    rw [hawaited c' hne] at ht
    obtain ⟨htg, hmatch⟩ := h.awaited c' wait hp' t ht
    rw [hids.matching]
    exact ⟨hstays c' wait hp t htg hmatch, hmatch⟩
  · obtain ⟨hne, hp'⟩ := hpending c' wait hp
    rw [htasks] at hstate ⊢
    rw [hawaited c' hne]
    exact h.woken c' wait hp' hstate

/-! ## The steps -/

/-- A dispatch touches nothing that the invariant is about. -/
theorem Sched.Sound.dispatch (h : s.Sound exits returned g k) (queues : ListHeap Queue TaskId)
    (current : Option TaskId) (hostCpustate : Option TaskId → Bool) :
    Sched.Sound { s with queues, current, hostCpustate } exits returned g k :=
  ⟨⟨h.pid, h.counter, h.parent, h.orphan, h.unstopped⟩, h.exited, h.reaped, fun c wait hp hpos => by
    obtain ⟨t, htarget, hret, hreap⟩ := h.found c wait hp hpos
    exact ⟨t, htarget, hret, hreap.registered, hreap.matching, hreap.exited⟩, h.awaited, h.woken⟩

theorem Sched.Sound.clone (h : s.Sound exits returned g k) (hcons : s.Consistent r b g w k)
    (hc : c < s.nrTasks) (flags : Word) (queues : ListHeap Queue TaskId)
    (globalTasks : ListHeap Unit TaskId) (waitQueues : ListHeap TaskId BlobId) :
    (s.cloned c flags queues globalTasks waitQueues).Sound exits returned (g ++ [s.nrTasks]) k := by
  have hold : ∀ t, t < s.nrTasks →
      (s.cloned c flags queues globalTasks waitQueues).tasks t = s.tasks t :=
    fun t ht => Function.update_of_ne (Nat.ne_of_lt ht) _ _
  have hcaller : ∀ c' wait, s.pending c' = some wait → c' < s.nrTasks := fun c' wait hp =>
    (hcons.waiting c' (by rw [hp]; exact Option.some_ne_none wait)).1
  have hmatching : ∀ c' t hint, c' < s.nrTasks → t < s.nrTasks →
      (s.cloned c flags queues globalTasks waitQueues).matching c' hint t =
        s.matching c' hint t := by
    intro c' t hint hc' ht
    rw [Sched.matching, Sched.matching, hold c' hc', hold t ht]
  refine ⟨h.toNumbered.clone hc flags queues globalTasks waitQueues, fun t ht => ?_,
    fun old hin hpos => ?_, fun c' wait hp hpos => ?_, fun c' wait hp t ht => ?_,
    fun c' wait hp hstate => ?_⟩
  · by_cases hne : t = s.nrTasks
    · simp [hne, Sched.cloned, childTask, Task.blank] at ht
    · refine h.exited t ?_
      rwa [show (s.cloned c flags queues globalTasks waitQueues).tasks t = s.tasks t from
        Function.update_of_ne hne _ _] at ht
  · obtain ⟨t, hlt, hpid, hout⟩ := h.reaped old hin hpos
    refine ⟨t, Nat.lt_succ_of_lt hlt, by rw [hold t hlt, hpid], fun ht => ?_⟩
    rcases List.mem_append.mp ht with ht | ht
    · exact hout ht
    · exact Nat.ne_of_lt hlt (List.mem_singleton.mp ht)
  · obtain ⟨t, htarget, hret, hreap⟩ := h.found c' wait hp hpos
    have hlt := hcons.created t hreap.registered
    refine ⟨t, htarget, by rw [hold t hlt, hret], List.mem_append_left _ hreap.registered, ?_, ?_⟩
    · rw [hmatching c' t _ (hcaller c' wait hp) hlt]
      exact hreap.matching
    · rw [hold t hlt]
      exact hreap.exited
  · obtain ⟨htg, hmatch⟩ := h.awaited c' wait hp t ht
    rw [hmatching c' t _ (hcaller c' wait hp) (hcons.created t htg)]
    exact ⟨List.mem_append_left _ htg, hmatch⟩
  · rw [hold c' (hcaller c' wait hp)] at hstate
    rcases h.woken c' wait hp hstate with hpos | ⟨t, ht, hexit⟩
    · exact Or.inl hpos
    · refine Or.inr ⟨t, ht, ?_⟩
      rw [hold t (hcons.awaited c' t ht)]
      exact hexit

/-- The exit of a task is news for the tasks it wakes. -/
theorem Sched.Sound.exit (h : s.Sound exits returned g k) (hcons : s.Consistent r b g w k)
    (hpending : s.pending c = none) :
    Sched.Sound { s with tasks := s.exitTasks c (w c) } (exits ++ [c]) returned g k := by
  have hother : ∀ t, t ≠ c → s.exitTasks c (w c) t = s.wokenTasks (w c) t := fun t ht => if_neg ht
  have hself : s.exitTasks c (w c) c =
      { s.tasks c with waitStateExited := true, state := .exiting } := if_pos rfl
  have hids : s.SameIds { s with tasks := s.exitTasks c (w c) } := by
    refine ⟨rfl, rfl, fun t => ?_⟩
    show ∃ state waitStateExited, s.exitTasks c (w c) t = { s.tasks t with state, waitStateExited }
    by_cases ht : t = c
    · rw [ht, hself]
      exact ⟨_, _, rfl⟩
    · rw [hother t ht]
      obtain ⟨state, heq⟩ := s.wokenTasks_eq (w c) t
      exact ⟨state, _, heq⟩
  have hexit : ∀ t, (s.tasks t).waitStateExited = true →
      (s.exitTasks c (w c) t).waitStateExited = true := by
    intro t ht
    by_cases htc : t = c
    · rw [htc, hself]
    · obtain ⟨state, heq⟩ := s.wokenTasks_eq (w c) t
      rw [hother t htc, heq]
      exact ht
  refine ⟨h.toNumbered.sameIds hids, fun t ht => ?_, fun old hold hpos => ?_,
    fun c' wait hp hpos => ?_, fun c' wait hp t ht => ?_, fun c' wait hp hstate => ?_⟩
  · by_cases htc : t = c
    · rw [htc]
      exact List.mem_append_right _ List.mem_cons_self
    · obtain ⟨state, heq⟩ := s.wokenTasks_eq (w c) t
      refine List.mem_append_left _ (h.exited t ?_)
      have hexit : Sched.tasks { s with tasks := s.exitTasks c (w c) } t =
          s.exitTasks c (w c) t := rfl
      rw [hexit, hother t htc, heq] at ht
      exact ht
  · obtain ⟨t, hlt, hpid, hout⟩ := h.reaped old hold hpos
    exact ⟨t, hlt, (hids.pid t).trans hpid, hout⟩
  · obtain ⟨t, htarget, hret, hreap⟩ := h.found c' wait hp hpos
    exact ⟨t, htarget, hret.trans (hids.pid t).symm, hreap.registered,
      (hids.matching c' _ t).trans hreap.matching, hexit t hreap.exited⟩
  · obtain ⟨htg, hmatch⟩ := h.awaited c' wait hp t ht
    exact ⟨htg, (hids.matching c' _ t).trans hmatch⟩
  · have hc' : c' ≠ c := by
      rintro rfl
      exact Option.some_ne_none wait (hp.symm.trans hpending)
    by_cases hawake : (s.tasks c').state = .interruptible
    · -- The task was woken by this exit, so it waits for the one that exits.
      have hmem : c' ∈ (w c).map fun blob => (s.blobs blob).task := by
        by_contra hnot
        refine hstate ?_
        show (s.exitTasks c (w c) c').state = .interruptible
        rw [hother c' hc', Sched.wokenTasks, if_neg hnot, hawake]
      obtain ⟨blob, hblob, rfl⟩ := List.mem_map.mp hmem
      obtain ⟨-, hvm, hin⟩ := hcons.waits.of_queue c blob hblob
      refine Or.inr ⟨c, List.mem_map.mpr ⟨blob, hin, hvm⟩, ?_⟩
      show (s.exitTasks c (w c) c).waitStateExited = true
      rw [hself]
    · rcases h.woken c' wait hp hawake with hpos | ⟨t, ht, hexited⟩
      · exact Or.inl hpos
      · exact Or.inr ⟨t, ht, hexit t hexited⟩

/-- A task that goes to sleep keeps what its scan has found. -/
theorem Sched.Sound.block (h : s.Sound exits returned g k) {d l : List TaskId} (hd : g = d ++ l)
    {s₁ : Sched} {w' k' : TaskId → List BlobId} {ret : Word} {target : Option TaskId}
    (hk : s.awaited k c = []) (hscan : Scanned s c pidHint options k d s₁ w' k')
    (hfound : 0 < ret.toInt → ∃ t, target = some t ∧ ret = (s.tasks t).pid ∧
      s.Reapable g c pidHint t) :
    (s₁.blocked c ⟨ret, target, pidHint, options⟩).Sound exits returned g k' := by
  have hawaited : (s₁.blocked c ⟨ret, target, pidHint, options⟩).awaited k' =
      Function.update (s.awaited k) c
        (if noHang options then [] else d.filter (s.matching c pidHint)) := by
    show s₁.awaited k' = _
    rw [hscan.awaited, hk, List.nil_append]
  obtain ⟨waitQueues, waitBlobs, blobs, nrBlobs, rfl⟩ := hscan.same
  set s₂ := Sched.blocked { s with waitQueues, waitBlobs, blobs, nrBlobs } c
    ⟨ret, target, pidHint, options⟩ with hs₂
  have htasks : ∀ t, t ≠ c → s₂.tasks t = s.tasks t := fun t ht => Function.update_of_ne ht _ _
  have hself : s₂.tasks c = { s.tasks c with state := .interruptible } := Function.update_self _ _ _
  have hids : s.SameIds s₂ := by
    refine ⟨rfl, rfl, fun t => ?_⟩
    by_cases ht : t = c
    · rw [ht, hself]
      exact ⟨_, _, rfl⟩
    · rw [htasks t ht]
      exact ⟨_, _, rfl⟩
  have hexited : ∀ t, (s₂.tasks t).waitStateExited = (s.tasks t).waitStateExited := by
    intro t
    by_cases ht : t = c
    · rw [ht, hself]
    · rw [htasks t ht]
  have hreapable : ∀ {c' hint t}, s.Reapable g c' hint t → s₂.Reapable g c' hint t :=
    fun hreap => ⟨hreap.registered, (hids.matching _ _ _).trans hreap.matching,
      (hexited _).trans hreap.exited⟩
  have hpending : ∀ c', c' ≠ c → s₂.pending c' = s.pending c' :=
    fun c' hc' => Function.update_of_ne hc' _ _
  have hpendingSelf : s₂.pending c = some ⟨ret, target, pidHint, options⟩ :=
    Function.update_self _ _ _
  refine ⟨h.toNumbered.sameIds hids, fun t ht => ?_, fun old hold hpos => ?_,
    fun c' wait hp hpos => ?_, fun c' wait hp t ht => ?_, fun c' wait hp hstate => ?_⟩
  · rw [hexited] at ht
    exact h.exited t ht
  · obtain ⟨t, hlt, hpid, hout⟩ := h.reaped old hold hpos
    exact ⟨t, hlt, (hids.pid t).trans hpid, hout⟩
  · by_cases hne : c' = c
    · subst hne
      obtain rfl := Option.some.inj (hpendingSelf.symm.trans hp)
      obtain ⟨t, htarget, hret, hreap⟩ := hfound hpos
      exact ⟨t, htarget, hret.trans (hids.pid t).symm, hreapable hreap⟩
    · rw [hpending c' hne] at hp
      obtain ⟨t, htarget, hret, hreap⟩ := h.found c' wait hp hpos
      exact ⟨t, htarget, hret.trans (hids.pid t).symm, hreapable hreap⟩
  · rw [hawaited] at ht
    rw [hids.matching]
    by_cases hne : c' = c
    · subst hne
      obtain rfl := Option.some.inj (hpendingSelf.symm.trans hp)
      rw [Function.update_self] at ht
      split at ht
      next => cases ht
      next =>
        obtain ⟨htd, hmatch⟩ := List.mem_filter.mp ht
        exact ⟨by rw [hd]; exact List.mem_append_left _ htd, hmatch⟩
    · rw [Function.update_of_ne hne] at ht
      rw [hpending c' hne] at hp
      exact h.awaited c' wait hp t ht
  · by_cases hne : c' = c
    · rw [hne, hself] at hstate
      exact absurd rfl hstate
    · rw [htasks c' hne] at hstate
      rw [hpending c' hne] at hp
      rw [hawaited, Function.update_of_ne hne]
      rcases h.woken c' wait hp hstate with hpos | ⟨t, ht, hexit⟩
      · exact Or.inl hpos
      · exact Or.inr ⟨t, ht, (hexited t).trans hexit⟩

/-! ## What the second scan chooses -/

theorem foldl_choose_of_pos {found : Word × Option TaskId} (hpos : 0 < found.1.toInt)
    (l : List BlobId) : l.foldl (s.choose options) found = found := by
  induction l with
  | nil => rfl
  | cons x l ih =>
    have hkeep : s.choose options found x = found :=
      if_neg fun hle => Int.not_le.mpr hpos hle.1
    rw [List.foldl_cons, hkeep, ih]

theorem Sched.Numbered.stateChanged (h : s.Numbered) (options : Word) (t : TaskId) :
    s.stateChanged options t = (s.tasks t).waitStateExited := by
  obtain ⟨hstopped, hcontinued⟩ := h.unstopped t
  simp [Sched.stateChanged, hstopped, hcontinued]

/-- The result is the one from before, or an exited task with a wait blob. -/
theorem Sched.Numbered.foldl_choose_cases (h : s.Numbered) (options : Word) (l : List BlobId)
    (found : Word × Option TaskId) :
    l.foldl (s.choose options) found = found ∨
      ∃ t ∈ l.map fun blob => (s.blobs blob).vm, (s.tasks t).waitStateExited = true ∧
        l.foldl (s.choose options) found = ((s.tasks t).pid, some t) := by
  induction l generalizing found with
  | nil => exact Or.inl rfl
  | cons x l ih =>
    rw [List.foldl_cons, List.map_cons]
    rcases ih (s.choose options found x) with hsame | ⟨t, ht, hexit, heq⟩
    · rw [hsame]
      unfold Sched.choose
      split
      next hnews =>
        rw [h.stateChanged] at hnews
        exact Or.inr ⟨_, List.mem_cons_self, hnews.2, rfl⟩
      next => exact Or.inl rfl
    · exact Or.inr ⟨t, List.mem_cons_of_mem _ ht, hexit, heq⟩

/-- If a task with a wait blob has exited, there is a result. -/
theorem Sched.Numbered.foldl_choose_pos (h : s.Numbered) (options : Word) {l : List BlobId}
    (found : Word × Option TaskId)
    (hpid : ∀ t ∈ l.map fun blob => (s.blobs blob).vm, 0 < (s.tasks t).pid.toInt)
    (hexit : ∃ t ∈ l.map fun blob => (s.blobs blob).vm, (s.tasks t).waitStateExited = true) :
    0 < (l.foldl (s.choose options) found).1.toInt := by
  induction l generalizing found with
  | nil =>
    obtain ⟨t, ht, -⟩ := hexit
    cases ht
  | cons x l ih =>
    rw [List.map_cons] at hpid hexit
    rw [List.foldl_cons]
    by_cases hpos : 0 < (s.choose options found x).1.toInt
    · rw [foldl_choose_of_pos hpos]
      exact hpos
    · refine ih _ (fun t ht => hpid t (List.mem_cons_of_mem _ ht)) ?_
      obtain ⟨t, ht, hexited⟩ := hexit
      rcases List.mem_cons.mp ht with rfl | ht
      · -- The first task has exited but was not chosen, so there was a result before.
        exfalso
        have hx := hpid _ List.mem_cons_self
        unfold Sched.choose at hpos
        split at hpos
        next => exact hpos hx
        next hnot =>
          rw [h.stateChanged, hexited] at hnot
          exact hpos (Int.not_le.mp fun hle => hnot ⟨hle, rfl⟩)
      · exact ⟨t, ht, hexited⟩

/-- What a task in `wait4` would return is reapable. -/
theorem Sched.Sound.chosen (h : s.Sound exits returned g k) {wait : PendingWait}
    (hp : s.pending c = some wait)
    (hpos : 0 < ((k c).foldl (s.choose wait.options) (wait.ret, wait.target)).1.toInt) :
    ∃ t, ((k c).foldl (s.choose wait.options) (wait.ret, wait.target)).2 = some t ∧
      ((k c).foldl (s.choose wait.options) (wait.ret, wait.target)).1 = (s.tasks t).pid ∧
      s.Reapable g c wait.pidHint t := by
  rcases h.foldl_choose_cases wait.options (k c) (wait.ret, wait.target) with
    hsame | ⟨t, ht, hexit, heq⟩
  · rw [hsame] at hpos ⊢
    exact h.found c wait hp hpos
  · rw [heq]
    obtain ⟨htg, hmatch⟩ := h.awaited c wait hp t ht
    exact ⟨t, rfl, rfl, htg, hmatch, hexit⟩

/-- A task in `wait4` that runs again has something to return. -/
theorem Sched.Sound.chosen_pos (h : s.Sound exits returned g k) (hcons : s.Consistent r b g w k)
    (hn : s.nrTasks < 2 ^ 31) {wait : PendingWait} (hp : s.pending c = some wait)
    (hstate : (s.tasks c).state ≠ .interruptible) :
    0 < ((k c).foldl (s.choose wait.options) (wait.ret, wait.target)).1.toInt := by
  rcases h.woken c wait hp hstate with hpos | hexit
  · rw [foldl_choose_of_pos hpos]
    exact hpos
  · refine h.foldl_choose_pos wait.options _ (fun t ht => ?_) hexit
    exact h.pid_pos hn (hcons.awaited c t ht)

/-! ## Returns -/

/-- A positive return names a child of the caller that matches its hint, has exited, was
registered and is not any more, and that no call has returned before.  A call that blocked
returns a positive value and leaves no wait entry. -/
structure ReapsOnce (h h' : Reaping) (ret : Wait4Return) : Prop where
  child : 0 < ret.ret.toInt → ∃ t, (h.sched.tasks t).parent = some ret.caller ∧
    (h.sched.tasks t).pid = ret.ret ∧ h.sched.matching ret.caller ret.pidHint t = true ∧
    t ∈ h.exits ∧ t ∈ h.sched.globalTasks.toList () ∧ t ∉ h'.sched.globalTasks.toList () ∧
    ∀ old ∈ h.returned, old.ret ≠ ret.ret
  positive : ret.blocked = true → 0 < ret.ret.toInt
  dequeued : ret.blocked = true → ∀ u, ∀ blob ∈ h'.sched.waitQueues.toList u,
    (h'.sched.blobs blob).task ≠ ret.caller

variable {h h' : Reaping} {action : TaskAction}

/-- A result that is reapable is reaped once. -/
theorem Sched.Sound.reapsOnce (hsound : h.sched.Sound h.exits h.returned g k)
    (hcons : h.sched.Consistent r b g w k) (hn : h.sched.nrTasks < 2 ^ 31) {r' b' : List TaskId}
    {w' k' : TaskId → List BlobId} {ret : Wait4Return} {target : Option TaskId}
    (hcons' : h'.sched.Consistent r' b' (reapedList g (ret.ret, target)) w' k')
    (hc : ret.caller < h.sched.nrTasks) (hk : k' ret.caller = [])
    (hret : 0 < ret.ret.toInt → ∃ t, target = some t ∧ ret.ret = (h.sched.tasks t).pid ∧
      h.sched.Reapable g ret.caller ret.pidHint t)
    (hblocked : ret.blocked = true → 0 < ret.ret.toInt) : ReapsOnce h h' ret := by
  refine ⟨fun hpos => ?_, hblocked, fun _ u blob hblob heq => ?_⟩
  · obtain ⟨t, rfl, hpid, hreap⟩ := hret hpos
    have hlt := hcons.created t hreap.registered
    refine ⟨t, hsound.parent_of_matching hn hc hlt hreap.matching, hpid.symm, hreap.matching,
      hsound.exited t hreap.exited, ?_, ?_, fun old hold heq => ?_⟩
    · rw [hcons.registered.toList ()]
      exact hreap.registered
    · rw [hcons'.registered.toList (), reapedList, if_pos hpos]
      exact (hcons.registered.nodup ()).not_mem_erase
    · obtain ⟨u, hu, hold, hout⟩ := hsound.reaped old hold (by rw [heq]; exact hpos)
      have hut := hsound.pid_inj hn hu hlt (hold.trans (heq.trans hpid))
      exact hout (hut ▸ hreap.registered)
  · rw [hcons'.waits.queues.toList u] at hblob
    obtain ⟨-, -, hin⟩ := hcons'.waits.of_queue u blob hblob
    rw [heq, hk] at hin
    cases hin

/-- What holds between the steps of a run. -/
def Reaping.Settled (h : Reaping) : Prop :=
  h.sched.OnCpu ∧ ∃ r b g w k, h.sched.Consistent r b g w k ∧
    h.sched.Sound h.exits h.returned g k

theorem Sched.Consistent.sound_dispatch (hcons : s.Consistent r b g w k)
    (hsound : s.Sound exits returned g k) :
    ∃ s', userspaceTrapHandler s = .ok s' ∧ Reaping.Settled ⟨s', exits, returned⟩ := by
  obtain ⟨queues, hrun, hcpu', hcons'⟩ := hcons.dispatch
  exact ⟨_, hrun, hcpu', _, _, _, _, _, hcons', hsound.dispatch _ _ _⟩

/-! ## Runs -/

/-- A call of `wait4` that does not block. -/
theorem Sched.returns_wait4 (hc : s.current = some c) {ret : Word}
    (hrun : callWait4 s c pidHint options = .ok (some ret, s')) :
    s.returns (.wait4 pidHint options) = some ⟨c, pidHint, false, ret⟩ := by
  simp only [Sched.returns, hc, Option.bind_eq_bind, Option.bind_some, hrun]
  rfl

/-- A call of `wait4` that blocks. -/
theorem Sched.returns_wait4_none (hc : s.current = some c)
    (hrun : callWait4 s c pidHint options = .ok (none, s')) :
    s.returns (.wait4 pidHint options) = none := by
  simp only [Sched.returns, hc, Option.bind_eq_bind, Option.bind_some, hrun]
  rfl

theorem Sched.returns_resume (hc : s.current = some c) {wait : PendingWait}
    (hp : s.pending c = some wait) {ret : Word} (hrun : resumeWait4 s c wait = .ok (ret, s')) :
    s.returns .resume = some ⟨c, wait.pidHint, true, ret⟩ := by
  simp only [Sched.returns, hc, Option.bind_eq_bind, Option.bind_some, hp, hrun]
  rfl

section Calls

variable (hcpu : s.OnCpu) (hcons : s.Consistent r b g w k)
  (hsound : s.Sound exits returned g k) (hn : s.nrTasks < 2 ^ 31) (hc : s.current = some c)

include hcpu hcons hsound hn hc

/-- A call of `wait4` returns what its scan has found, or goes to sleep. -/
theorem Sched.Sound.wait4 (hp : s.pending c = none)
    (hres : .ok s' = do return (← callWait4 s c pidHint options).2) :
    Reaping.Settled ⟨s', exits ++ s.exits (.wait4 pidHint options),
      returned ++ (s.returns (.wait4 pidHint options)).toList⟩ ∧
    ∀ ret, s.returns (.wait4 pidHint options) = some ret → ReapsOnce ⟨s, exits, returned⟩
      ⟨s', exits ++ s.exits (.wait4 pidHint options),
        returned ++ (s.returns (.wait4 pidHint options)).toList⟩ ret := by
  have hclt := hcons.listed_lt hcpu (Or.inr (Or.inr hc))
  obtain ⟨d, l, s₁, w', k', ret, target, hd, hscan, hfound, hblock, hreturn⟩ :=
    hcons.callWait4 (hcpu c hc) hp pidHint options
  have hreap : 0 < ret.toInt → ∃ t, target = some t ∧ ret = (s.tasks t).pid ∧
      s.Reapable g c pidHint t := by
    intro hpos
    rcases hfound with ⟨-, -, hret⟩ | ⟨t, l', rfl, hmatch, hexit, hret, htarget⟩
    · exact absurd hpos (Int.not_lt.mpr hret)
    · exact ⟨t, htarget, hret, by simp [hd], hmatch, hexit⟩
  by_cases hqueued : k' c = []
  · obtain ⟨globalTasks, waitQueues, waitBlobs, w'', hrun, hcons'⟩ := hreturn hqueued
    have hreturns := Sched.returns_wait4 hc hrun
    rw [hrun] at hres
    obtain rfl := Except.ok.inj hres
    have hawaited : ∀ c', c' ≠ c → s₁.awaited k' c' = s.awaited k c' := fun c' hne => by
      rw [hscan.awaited, Function.update_of_ne hne]
    obtain ⟨waitQueues₁, waitBlobs₁, blobs, nrBlobs, rfl⟩ := hscan.same
    rw [hreturns]
    have hids : s.SameIds { s with waitQueues, waitBlobs, blobs, nrBlobs, globalTasks } :=
      ⟨rfl, rfl, fun t => ⟨_, _, rfl⟩⟩
    have hsound' := hsound.reap hcons hn hclt k' hids rfl (fun c' wait hp' => ⟨?_, hp'⟩) hawaited
      ⟨c, pidHint, false, ret⟩ hreap
    · refine ⟨⟨hcpu, _, _, _, _, _, hcons', ?_⟩, ?_⟩
      · simpa [Sched.exits] using hsound'
      · rintro ret' hret'
        cases hret'
        exact Sched.Sound.reapsOnce hsound hcons hn hcons' hclt hqueued hreap (by simp)
    · rintro rfl
      exact Option.some_ne_none wait (hp'.symm.trans hp)
  · have hcons₁ := hcons.block hcpu hc ⟨ret, target, pidHint, options⟩ hfound.target_ne_none hd
      hscan
    have hawaited : s.awaited k c = [] := by
      rw [Sched.awaited, hcons.idle c hp, List.map_nil]
    obtain ⟨s'', hrun, hs''⟩ := hcons₁.sound_dispatch (hsound.block hd hawaited hscan hreap)
    have hcall := hblock hqueued
    rw [hrun] at hcall
    have hreturns := Sched.returns_wait4_none hc hcall
    rw [hcall] at hres
    obtain rfl := Except.ok.inj hres
    rw [hreturns]
    refine ⟨?_, fun ret hret => by cases hret⟩
    simpa [Sched.exits] using hs''

/-- A call that wakes up returns what its second scan chooses. -/
theorem Sched.Sound.resume {wait : PendingWait} (hp : s.pending c = some wait)
    (hres : .ok s' = do return (← resumeWait4 s c wait).2) :
    Reaping.Settled ⟨s', exits ++ s.exits .resume, returned ++ (s.returns .resume).toList⟩ ∧
    ∀ ret, s.returns .resume = some ret → ReapsOnce ⟨s, exits, returned⟩
      ⟨s', exits ++ s.exits .resume, returned ++ (s.returns .resume).toList⟩ ret := by
  have hclt := hcons.listed_lt hcpu (Or.inr (Or.inr hc))
  obtain ⟨globalTasks, waitQueues, waitBlobs, w', hrun, hcons'⟩ :=
    hcons.finish c wait.options (hcons.targets c wait hp)
  have hids : s.SameIds { s with
      pending := Function.update s.pending c none, globalTasks, waitQueues, waitBlobs } :=
    ⟨rfl, rfl, fun t => ⟨_, _, rfl⟩⟩
  have hreturns := Sched.returns_resume hc hp hrun
  rw [resumeWait4, hrun] at hres
  obtain rfl := Except.ok.inj hres
  rw [hreturns]
  have hchosen := hsound.chosen hp
  have hsound' := hsound.reap hcons hn hclt (Function.update k c []) hids rfl
    (fun c' wait' hp' => ?_) (fun c' hne => ?_) ⟨c, wait.pidHint, true, _⟩ hchosen
  · refine ⟨⟨hcpu, _, _, _, _, _, hcons', ?_⟩, ?_⟩
    · simpa [Sched.exits] using hsound'
    · rintro ret' hret'
      cases hret'
      refine Sched.Sound.reapsOnce hsound hcons hn hcons' hclt (Function.update_self _ _ _)
        hchosen fun _ => ?_
      exact hsound.chosen_pos hcons hn hp (by simp [hcpu c hc])
  · by_cases hne : c' = c
    · simp [hne] at hp'
    · exact ⟨hne, by simpa [Function.update_of_ne hne] using hp'⟩
  · simp [Sched.awaited, Function.update_of_ne hne]

end Calls

/-- Every step keeps the invariant, and what it returns is reaped once. -/
theorem Reaping.Settled.step (hsettled : h.Settled) (hn : h.sched.nrTasks < 2 ^ 31)
    (hstep : reapRuns.step h action h') :
    h'.Settled ∧ ∀ ret, h.sched.returns action = some ret → ReapsOnce h h' ret := by
  obtain ⟨s, exits, returned⟩ := h
  obtain ⟨s', exits', returned'⟩ := h'
  obtain ⟨hcpu, r, b, g, w, k, hcons, hsound⟩ := hsettled
  obtain ⟨hstep, hexits, hreturned⟩ := hstep
  simp only at *
  subst hexits hreturned
  rcases Sched.perform_cases hstep with ⟨rfl, hres⟩ | ⟨c, hc, ⟨flags, rfl, hp, hres⟩ |
    ⟨pidHint, options, rfl, hp, hres⟩ | ⟨rfl, hp, hres⟩ | ⟨wait, rfl, hp, hres⟩⟩
  · obtain ⟨s'', hrun, hs''⟩ := hcons.sound_dispatch hsound
    rw [hrun] at hres
    obtain rfl := Except.ok.inj hres
    refine ⟨?_, fun ret hret => by cases hret⟩
    simpa [Sched.exits, Sched.returns] using hs''
  · have hclt := hcons.listed_lt hcpu (Or.inr (Or.inr hc))
    obtain ⟨queues, globalTasks, waitQueues, hrun, hcpu', hcons'⟩ := hcons.clone hcpu c flags
    rw [hrun] at hres
    obtain rfl := Except.ok.inj hres
    refine ⟨⟨hcpu', _, _, _, _, _, hcons', ?_⟩, fun ret hret => by cases hret⟩
    simpa [Sched.exits, Sched.returns] using
      hsound.clone hcons hclt flags queues globalTasks waitQueues
  · exact hsound.wait4 hcpu hcons hn hc hp hres
  · obtain ⟨s'', hrun, hs''⟩ := (hcons.exit hc hp).sound_dispatch (hsound.exit hcons hp)
    rw [hcons.doExit_eq hcpu hc, hrun] at hres
    obtain rfl := Except.ok.inj hres
    refine ⟨?_, fun ret hret => by cases hret⟩
    simpa [Sched.exits, Sched.returns, hc] using hs''
  · exact hsound.resume hcpu hcons hn hc hp hres

/-- No step takes a task back. -/
theorem Sched.Settled.nrTasks_le (hsettled : s.Settled) (hstep : schedRuns.step s action s') :
    s.nrTasks ≤ s'.nrTasks := by
  obtain ⟨hcpu, r, b, g, w, k, hcons⟩ := hsettled
  have hdispatch : ∀ {s₁ : Sched} {r b g : List TaskId} {w k : TaskId → List BlobId},
      s₁.Consistent r b g w k → userspaceTrapHandler s₁ = .ok s' → s'.nrTasks = s₁.nrTasks := by
    intro s₁ r b g w k hcons₁ hrun
    obtain ⟨queues, hrun', -⟩ := hcons₁.dispatch
    obtain rfl := Except.ok.inj (hrun'.symm.trans hrun)
    rfl
  rcases Sched.perform_cases hstep with ⟨-, hres⟩ | ⟨c, hc, ⟨flags, -, -, hres⟩ |
    ⟨pidHint, options, -, hp, hres⟩ | ⟨-, hp, hres⟩ | ⟨wait, -, hp, hres⟩⟩
  · exact Nat.le_of_eq (hdispatch hcons hres.symm).symm
  · obtain ⟨queues, globalTasks, waitQueues, hrun, -⟩ := hcons.clone hcpu c flags
    obtain rfl := Except.ok.inj (hres.trans hrun)
    exact Nat.le_succ _
  · obtain ⟨d, l, s₁, w', k', ret, target, hd, hscan, hfound, hblock, hreturn⟩ :=
      hcons.callWait4 (hcpu c hc) hp pidHint options
    have hsame : s₁.nrTasks = s.nrTasks := by
      obtain ⟨_, _, _, _, rfl⟩ := hscan.same
      rfl
    by_cases hqueued : k' c = []
    · obtain ⟨globalTasks, waitQueues, waitBlobs, w'', hrun, -⟩ := hreturn hqueued
      rw [hrun] at hres
      obtain rfl := Except.ok.inj hres
      exact Nat.le_of_eq hsame.symm
    · have hcons₁ := hcons.block hcpu hc ⟨ret, target, pidHint, options⟩
        hfound.target_ne_none hd hscan
      rw [hblock hqueued] at hres
      obtain ⟨⟨_, s₂⟩, hcall, hs₂⟩ := bind_eq_ok.mp hres.symm
      obtain ⟨s₃, hrun, hcall⟩ := bind_eq_ok.mp hcall
      cases hcall
      cases hs₂
      exact Nat.le_of_eq (hsame.symm.trans (hdispatch hcons₁ hrun).symm)
  · rw [hcons.doExit_eq hcpu hc] at hres
    exact Nat.le_of_eq (hdispatch (hcons.exit hc hp) hres.symm).symm
  · obtain ⟨globalTasks, waitQueues, waitBlobs, w', hrun, -⟩ :=
      hcons.finish c wait.options (hcons.targets c wait hp)
    rw [resumeWait4, hrun] at hres
    obtain rfl := Except.ok.inj hres
    exact Nat.le_refl _

/-- The first task has the first pid and has not exited. -/
theorem boot_tasks (h : boot = .ok s) :
    s.Numbered ∧ ∀ t, (s.tasks t).waitStateExited = false := by
  obtain ⟨s₁, hregister, h⟩ := bind_eq_ok.mp h
  obtain ⟨s₂, htransit, h⟩ := bind_eq_ok.mp h
  obtain ⟨globalTasks, -, hregister⟩ := bind_eq_ok.mp hregister
  cases hregister
  obtain ⟨-, -, htransit⟩ := bind_eq_ok.mp htransit
  cases htransit
  unfold scheduleTask at h
  split at h
  next => cases h
  next =>
    obtain ⟨queues, -, h⟩ := bind_eq_ok.mp h
    cases h
    simp only [Sched.modifyTask, Function.update_idem, Function.update_self]
    have hblank : ∀ {t}, t ≠ 0 → ∀ first : Task,
        Function.update (fun _ => Task.blank) 0 first t = Task.blank :=
      fun ht first => Function.update_of_ne ht _ _
    refine ⟨⟨fun t ht => ?_, rfl, fun t p ht hparent => ?_, fun t ht _ => ?_, fun t => ?_⟩,
      fun t => ?_⟩
    · obtain rfl : t = 0 := Nat.lt_one_iff.mp ht
      rfl
    · obtain rfl : t = 0 := Nat.lt_one_iff.mp ht
      cases hparent
    · obtain rfl : t = 0 := Nat.lt_one_iff.mp ht
      rfl
    · by_cases ht : t = 0
      · subst ht
        exact ⟨rfl, rfl⟩
      · simp only [hblank ht]
        exact ⟨rfl, rfl⟩
    · by_cases ht : t = 0
      · subst ht
        rfl
      · simp only [hblank ht]
        rfl

theorem sched_of_reaping (hreach : reapRuns.Reachable h) : schedRuns.Reachable h.sched := by
  induction hreach with
  | init hinit => exact .init hinit.1
  | step _ hstep ih => exact ih.step hstep.1

/-- The invariant in every run with few enough tasks. -/
theorem reaping_settled (hreach : reapRuns.Reachable h) (hn : h.sched.nrTasks < 2 ^ 31) :
    h.Settled := by
  induction hreach with
  | @init h hinit =>
    obtain ⟨hboot, hexits, hreturned⟩ := hinit
    obtain ⟨s, hrun, ⟨hcpu, r, b, g, w, k, hcons⟩, hpending⟩ := boot_spec
    obtain rfl : s = h.sched := Except.ok.inj (hrun.symm.trans hboot)
    obtain ⟨hnumbered, hexited⟩ := boot_tasks hboot
    have hnone : ∀ {c wait} {P : Prop}, h.sched.pending c = some wait → P := fun hp => by
      rw [hpending] at hp
      cases hp
    refine ⟨hcpu, r, b, g, w, k, hcons, hnumbered, fun t ht => ?_, fun old hold => ?_,
      fun _ _ hp => hnone hp, fun _ _ hp => hnone hp, fun _ _ hp => hnone hp⟩
    · rw [hexited t] at ht
      cases ht
    · rw [hreturned] at hold
      cases hold
  | @step h h' action hreach hstep ih =>
    have hle := (Sched.settled_of_reachable (sched_of_reaping hreach)).nrTasks_le hstep.1
    have hn' := Nat.lt_of_le_of_lt hle hn
    exact ((ih hn').step hn' hstep).1

/-- What a step returns is reaped once. -/
theorem reapsOnce_of_step (hreach : reapRuns.Reachable h) (hstep : reapRuns.step h action h')
    (hn : h'.sched.nrTasks < 2 ^ 31) {ret : Wait4Return}
    (hret : h.sched.returns action = some ret) : ReapsOnce h h' ret := by
  have hle := (Sched.settled_of_reachable (sched_of_reaping hreach)).nrTasks_le hstep.1
  have hn' := Nat.lt_of_le_of_lt hle hn
  exact ((reaping_settled hreach hn').step hn' hstep).2 ret hret

/-- The history of returns only grows. -/
theorem returned_of_later (hstep : reapRuns.step h action h') {ret : Wait4Return}
    (hret : h.sched.returns action = some ret) {later : Reaping}
    (hlater : (reapRuns.startAt h').Reachable later) : ret ∈ later.returned := by
  refine hlater.invariant (P := fun x => ret ∈ x.returned) ?_ ?_
  · rintro x rfl
    rw [hstep.2.2, hret]
    exact List.mem_append_right _ List.mem_cons_self
  · intro x action' x' hx hstep'
    rw [hstep'.2.2]
    exact List.mem_append_left _ hx

/-- In every run with fewer than 2^31 tasks, children are reaped exactly once and only when
dead, and no later call returns the same pid. -/
theorem wait4_reaps_once (hreach : reapRuns.Reachable h) (hstep : reapRuns.step h action h')
    (hn : h'.sched.nrTasks < 2 ^ 31) {ret : Wait4Return}
    (hret : h.sched.returns action = some ret) :
    ReapsOnce h h' ret ∧
    (0 < ret.ret.toInt → ∀ later later' action' ret', (reapRuns.startAt h').Reachable later →
      reapRuns.step later action' later' → later'.sched.nrTasks < 2 ^ 31 →
      later.sched.returns action' = some ret' → ret'.ret ≠ ret.ret) := by
  refine ⟨reapsOnce_of_step hreach hstep hn hret, ?_⟩
  intro hpos later later' action' ret' hlater hstep' hn' hret' heq
  have hreach' := (hreach.step hstep).of_startAt hlater
  have honce := reapsOnce_of_step hreach' hstep' hn' hret'
  obtain ⟨t, -, -, -, -, -, -, hfresh⟩ := honce.child (by rw [heq]; exact hpos)
  exact hfresh ret (returned_of_later hstep hret hlater) heq.symm

/-- Every run has a history. -/
theorem reaping_of_sched (hreach : schedRuns.Reachable s) :
    ∃ exits returned, reapRuns.Reachable ⟨s, exits, returned⟩ := by
  induction hreach with
  | init hinit => exact ⟨[], [], .init ⟨hinit, rfl, rfl⟩⟩
  | step _ hstep ih =>
    obtain ⟨exits, returned, hreach⟩ := ih
    exact ⟨_, _, hreach.step ⟨hstep, rfl, rfl⟩⟩

/-- A parent sleeps in `wait4` until its child exits, and returns the child. -/
theorem wait4_reaps_once_sleeper :
    ∃ h h' ret, reapRuns.Reachable h ∧ reapRuns.step h .resume h' ∧
      h.sched.returns .resume = some ret ∧ ret.blocked = true ∧ ret.ret = 2 ∧
      ReapsOnce h h' ret := by
  have hrun : (do
      let s ← schedRun [.yield, .clone 0, .wait4 (-1) 0, .exit]
      let s' ← s.follow .resume
      let ret ← s.returns .resume
      return (s'.nrTasks, ret.blocked, ret.ret)) = some (2, true, 2) := by
    decide +kernel
  obtain ⟨s, hs, hrun⟩ := Option.bind_eq_some_iff.mp hrun
  obtain ⟨s', hs', hrun⟩ := Option.bind_eq_some_iff.mp hrun
  obtain ⟨ret, hret, hview⟩ := Option.bind_eq_some_iff.mp hrun
  simp only [Option.pure_def, Option.some.injEq, Prod.mk.injEq] at hview
  obtain ⟨hnr, hblocked, hpid⟩ := hview
  obtain ⟨exits, returned, hreach⟩ := reaping_of_sched (reachable_of_schedRun hs)
  have hstep : reapRuns.step ⟨s, exits, returned⟩ .resume ⟨s', _, _⟩ :=
    ⟨schedRuns_step_of_follow hs', rfl, rfl⟩
  refine ⟨_, _, ret, hreach, hstep, hret, hblocked, hpid, ?_⟩
  exact (wait4_reaps_once hreach hstep (by rw [hnr]; decide) hret).1

end Hyrule
