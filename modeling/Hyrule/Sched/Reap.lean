import Hyrule.Sched.Safety

/-!
# Waiting for exited children

A task inside `call_wait4` should not sleep while a child that it waits for has
exited and is still in the task list.  The scan of `call_wait4` queues a wait
blob for each live child it meets before it meets an exited one, and whether it
blocks depends on the blobs alone.  So it sleeps past an exited child that stands
behind a live one (`wait4_oversleeps`).

`wait4_wakes_for_exited` is what holds otherwise: if at every call the first child
of the task list that matches has exited, or none has, no task oversleeps.  The
invariant is `Sched.Watchful`: a sleeping task has a wait blob for every child it
waits for, and the exit of such a child wakes it.
-/

namespace Hyrule

open Lib Lib.Result

/-! ## The property and the condition -/

/-- No task sleeps in `call_wait4` while a child that matches its hint has exited
and has not been unregistered. -/
def Sched.NoOversleep (s : Sched) : Prop :=
  ∀ p wait t, s.pending p = some wait → (s.tasks p).state = .interruptible →
    t ∈ s.globalTasks.toList () → (s.tasks t).parent = some p →
    s.matching p wait.pidHint t = true → (s.tasks t).waitStateExited = false

/-- The first task of the task list that matches has exited, or none that matches
has. -/
def Sched.ExitedFirst (s : Sched) (c : TaskId) (pidHint : Word) : Prop :=
  (∃ t ∈ s.globalTasks.toList (), s.matching c pidHint t = true ∧
    (s.tasks t).waitStateExited = true) →
  ∃ t ∈ (s.globalTasks.toList ()).find? (s.matching c pidHint),
    (s.tasks t).waitStateExited = true

/-- A call of `wait4` that may block finds an exited child first, if there is one. -/
def waitsInOrder (s : Sched) : TaskAction → Prop
  | .wait4 pidHint options => noHang options = false → ∀ c ∈ s.current, s.ExitedFirst c pidHint
  | _ => True

instance (s : Sched) (c : TaskId) (pidHint : Word) : Decidable (s.ExitedFirst c pidHint) :=
  inferInstanceAs (Decidable (_ → _))

instance (s : Sched) : (action : TaskAction) → Decidable (waitsInOrder s action)
  | .wait4 pidHint options =>
      inferInstanceAs (Decidable (noHang options = false → ∀ c ∈ s.current,
        s.ExitedFirst c pidHint))
  | .clone _ | .exit | .yield | .resume => .isTrue trivial

/-! ## The invariant -/

/-- A sleeping task waits for each of its children that match, and none of them has
exited. -/
def Sched.Watchful (s : Sched) (g : List TaskId) (k : TaskId → List BlobId) : Prop :=
  ∀ p wait t, s.pending p = some wait → (s.tasks p).state = .interruptible →
    t ∈ g → (s.tasks t).parent = some p → s.matching p wait.pidHint t = true →
    (s.tasks t).waitStateExited = false ∧ t ∈ s.awaited k p

/-- The tasks differ in their states only. -/
def Sched.SameButStates (s s' : Sched) : Prop :=
  ∀ t, ∃ state, s'.tasks t = { s.tasks t with state }

theorem Sched.SameButStates.matching {s s' : Sched} (h : s.SameButStates s') (c : TaskId)
    (pidHint : Word) (t : TaskId) : s'.matching c pidHint t = s.matching c pidHint t := by
  obtain ⟨_, hc⟩ := h c
  obtain ⟨_, ht⟩ := h t
  rw [Sched.matching, Sched.matching, hc, ht]
  rfl

/-- A step that puts no task to sleep and registers none keeps the invariant. -/
theorem Sched.Watchful.frame {s s' : Sched} {g g' : List TaskId} {k k' : TaskId → List BlobId}
    (h : s.Watchful g k) (hsame : s.SameButStates s') (hg : g' ⊆ g)
    (hsleep : ∀ p wait, s'.pending p = some wait → (s'.tasks p).state = .interruptible →
      s.pending p = some wait ∧ (s.tasks p).state = .interruptible ∧
        s'.awaited k' p = s.awaited k p) : s'.Watchful g' k' := by
  intro p wait t hp hstate ht hparent hmatch
  obtain ⟨hp', hstate', hawaited⟩ := hsleep p wait hp hstate
  rw [hsame.matching] at hmatch
  obtain ⟨_, htask⟩ := hsame t
  rw [htask] at hparent ⊢
  rw [hawaited]
  exact h p wait t hp' hstate' (hg ht) hparent hmatch

/-! ## The steps -/

/-- The child of a clone is waited for by nobody who sleeps. -/
theorem Sched.Watchful.clone {s : Sched} {r b g : List TaskId} {w k : TaskId → List BlobId}
    (h : s.Watchful g k) (hcons : s.Consistent r b g w k) {c : TaskId}
    (hpending : s.pending c = none) (flags : Word) (queues : ListHeap Queue TaskId)
    (globalTasks : ListHeap Unit TaskId) (waitQueues : ListHeap TaskId BlobId) :
    (s.cloned c flags queues globalTasks waitQueues).Watchful (g ++ [s.nrTasks]) k := by
  intro p wait t hp hstate ht hparent hmatch
  have hp' : s.pending p = some wait := hp
  have hold : ∀ u, u < s.nrTasks →
      (s.cloned c flags queues globalTasks waitQueues).tasks u = s.tasks u :=
    fun u hu => Function.update_of_ne (Nat.ne_of_lt hu) _ _
  have hplt : p < s.nrTasks := (hcons.waiting p (by simp [hp'])).1
  rcases List.mem_append.mp ht with htg | htn
  · have htlt := hcons.created t htg
    rw [Sched.matching, hold p hplt, hold t htlt] at hmatch
    rw [hold p hplt] at hstate
    rw [hold t htlt] at hparent ⊢
    exact h p wait t hp' hstate htg hparent hmatch
  · -- The parent of the child is the task that cloned, which does not sleep.
    rw [List.mem_singleton.mp htn] at hparent
    have hpc : c = p := by simpa [Sched.cloned, childTask] using hparent
    rw [← hpc, hpending] at hp'
    cases hp'

/-- The exit of a child wakes the tasks that wait for it. -/
theorem Sched.Watchful.exit {s : Sched} {r b g : List TaskId} {w k : TaskId → List BlobId}
    (h : s.Watchful g k) (hcons : s.Consistent r b g w k) (c : TaskId) :
    Sched.Watchful { s with tasks := s.exitTasks c (w c) } g k := by
  intro p wait t hp hstate ht hparent hmatch
  have hpc : p ≠ c := by
    rintro rfl
    simp [Sched.exitTasks] at hstate
  have hasleep : p ∉ (w c).map (fun blob => (s.blobs blob).task) ∧
      (s.tasks p).state = .interruptible := by
    have hstate' : (s.wokenTasks (w c) p).state = .interruptible := by
      simpa [Sched.exitTasks, hpc] using hstate
    unfold Sched.wokenTasks at hstate'
    split at hstate'
    next =>
      unfold Task.wake at hstate'
      split at hstate'
      next => cases hstate'
      next hnot => exact absurd hstate' hnot
    next hnot => exact ⟨hnot, hstate'⟩
  have hidentity : ∀ u, (s.exitTasks c (w c) u).pid = (s.tasks u).pid ∧
      (s.exitTasks c (w c) u).ppid = (s.tasks u).ppid ∧
      (s.exitTasks c (w c) u).tgid = (s.tasks u).tgid ∧
      (s.exitTasks c (w c) u).parent = (s.tasks u).parent := by
    intro u
    unfold Sched.exitTasks
    split
    next hu => simp [hu]
    next =>
      obtain ⟨state, heq⟩ := s.wokenTasks_eq (w c) u
      simp [heq]
  have hold := h p wait t hp hasleep.2 ht ((hidentity t).2.2.2 ▸ hparent) (by
    obtain ⟨hpid, hppid, htgid, -⟩ := hidentity t
    simpa [Sched.matching, isToWait, hidentity p, hpid, hppid, htgid] using hmatch)
  refine ⟨?_, hold.2⟩
  have htc : t ≠ c := by
    rintro rfl
    obtain ⟨blob, hblob, hvm⟩ := List.mem_map.mp hold.2
    obtain ⟨-, htask, hin⟩ := hcons.waits.of_list p blob hblob
    exact hasleep.1 (List.mem_map.mpr ⟨blob, hvm ▸ hin, htask⟩)
  show (s.exitTasks c (w c) t).waitStateExited = false
  obtain ⟨state, heq⟩ := s.wokenTasks_eq (w c) t
  rw [Sched.exitTasks, if_neg htc, heq]
  exact hold.1

/-- A call of `wait4` that blocks has scanned all of the task list, if it finds an
exited child first. -/
theorem Scanned.all_of_exitedFirst {s s₁ : Sched} {c : TaskId} {pidHint options : Word}
    {k w' k' : TaskId → List BlobId} {d l : List TaskId} {ret : Word} {target : Option TaskId}
    (hscan : Scanned s c pidHint options k d s₁ w' k')
    (hg : s.globalTasks.toList () = d ++ l)
    (hfirst : noHang options = false → s.ExitedFirst c pidHint)
    (hk : s.awaited k c = []) (hqueued : k' c ≠ [])
    (hfound : s.StopsAt c pidHint l ret target) :
    l = [] ∧ noHang options = false := by
  have hawaited : s₁.awaited k' c =
      if noHang options then [] else d.filter (s.matching c pidHint) := by
    rw [hscan.awaited, Function.update_self, hk, List.nil_append]
  have hnonempty : s₁.awaited k' c ≠ [] := by
    rw [Sched.awaited, Ne, List.map_eq_nil_iff]
    exact hqueued
  have hhang : noHang options = false := by
    cases hhang : noHang options with
    | false => rfl
    | true => simp [hawaited, hhang] at hnonempty
  refine ⟨?_, hhang⟩
  rcases hfound with ⟨hl, -⟩ | ⟨t, l', hl, hmatch, hexit, -⟩
  · exact hl
  · -- The first match stands in front of `t`, among the live ones.
    exfalso
    obtain ⟨u, hu, hexited⟩ := hfirst hhang ⟨t, by simp [hg, hl], hmatch, hexit⟩
    rw [hg, List.find?_append] at hu
    have hd : d.find? (s.matching c pidHint) ≠ none := by
      rw [hawaited, hhang] at hnonempty
      intro hnone
      rw [List.find?_eq_none] at hnone
      exact hnonempty (by simpa [List.filter_eq_nil_iff] using hnone)
    obtain ⟨v, hv⟩ := Option.ne_none_iff_exists'.mp hd
    rw [hv, Option.some_or] at hu
    obtain rfl : v = u := Option.some.inj hu
    rw [hscan.live v (List.mem_of_find?_eq_some hv) (List.find?_some hv)] at hexited
    cases hexited

/-- A task that goes to sleep waits for all its children that match. -/
theorem Sched.Watchful.block {s s₁ : Sched} {g : List TaskId} {c : TaskId} {wait : PendingWait}
    {k w' k' : TaskId → List BlobId} (h : s.Watchful g k)
    (hscan : Scanned s c wait.pidHint wait.options k g s₁ w' k')
    (hhang : noHang wait.options = false) : (s₁.blocked c wait).Watchful g k' := by
  obtain ⟨waitQueues, waitBlobs, blobs, nrBlobs, rfl⟩ := hscan.same
  set s₁ : Sched := { s with waitQueues, waitBlobs, blobs, nrBlobs } with hs₁
  have hsame : s.SameButStates (s₁.blocked c wait) := by
    intro t
    by_cases ht : t = c
    · exact ⟨.interruptible, by simp [Sched.blocked, ht, hs₁]⟩
    · exact ⟨(s.tasks t).state, by simp [Sched.blocked, Function.update_of_ne ht, hs₁]⟩
  have hawaited : (s₁.blocked c wait).awaited k' = s₁.awaited k' := rfl
  intro p wait' t hp hstate ht hparent hmatch
  rw [hawaited, hscan.awaited]
  rw [hsame.matching] at hmatch
  obtain ⟨state, htask⟩ := hsame t
  rw [htask] at hparent ⊢
  by_cases hpc : p = c
  · subst hpc
    obtain rfl : wait = wait' := by simpa [Sched.blocked] using hp
    refine ⟨hscan.live t ht hmatch, ?_⟩
    simp [hhang, ht, hmatch]
  · rw [Function.update_of_ne hpc]
    refine h p wait' t ?_ ?_ ht hparent hmatch
    · simpa [Sched.blocked, Function.update_of_ne hpc, hs₁] using hp
    · simpa [Sched.blocked, Function.update_of_ne hpc, hs₁] using hstate

/-! ## Runs -/

/-- What holds between the steps of a run whose waits are in order. -/
def Sched.SettledWatchful (s : Sched) : Prop :=
  s.OnCpu ∧ ∃ r b g w k, s.Consistent r b g w k ∧ s.Watchful g k

theorem Sched.Consistent.watchful_dispatch {s : Sched} {r b g : List TaskId}
    {w k : TaskId → List BlobId} (hcons : s.Consistent r b g w k) (h : s.Watchful g k) :
    ∃ s', userspaceTrapHandler s = .ok s' ∧ s'.SettledWatchful := by
  obtain ⟨queues, hrun, hcpu', hcons'⟩ := hcons.dispatch
  refine ⟨_, hrun, hcpu', _, _, _, _, _, hcons', ?_⟩
  exact h.frame (fun t => ⟨(s.tasks t).state, rfl⟩) (fun _ ht => ht)
    fun p wait hp hstate => ⟨hp, hstate, rfl⟩

theorem Sched.Consistent.awaited_nil {s : Sched} {r b g : List TaskId}
    {w k : TaskId → List BlobId} (hcons : s.Consistent r b g w k) {c : TaskId}
    (hpending : s.pending c = none) : s.awaited k c = [] := by
  rw [Sched.awaited, hcons.idle c hpending, List.map_nil]

/-- A step whose wait is in order keeps the invariant. -/
theorem Sched.SettledWatchful.step {s s' : Sched} (h : s.SettledWatchful) {action : TaskAction}
    (horder : waitsInOrder s action) (hstep : schedRuns.step s action s') :
    s'.SettledWatchful := by
  obtain ⟨hcpu, r, b, g, w, k, hcons, hwatch⟩ := h
  have hg : s.globalTasks.toList () = g := hcons.registered.toList ()
  rcases Sched.perform_cases hstep with ⟨-, hres⟩ | ⟨c, hc, ⟨flags, -, hp, hres⟩ |
    ⟨pidHint, options, rfl, hp, hres⟩ | ⟨-, hp, hres⟩ | ⟨wait, -, hp, hres⟩⟩
  · obtain ⟨s'', hrun, hs''⟩ := hcons.watchful_dispatch hwatch
    rw [hrun] at hres
    rwa [Except.ok.inj hres]
  · obtain ⟨queues, globalTasks, waitQueues, hrun, hcpu', hcons'⟩ := hcons.clone hcpu c flags
    rw [hrun] at hres
    rw [Except.ok.inj hres]
    exact ⟨hcpu', _, _, _, _, _, hcons',
      hwatch.clone hcons hp flags queues globalTasks waitQueues⟩
  · obtain ⟨d, l, s₁, w', k', ret, target, hd, hscan, hfound, hblock, hreturn⟩ :=
      hcons.callWait4 (hcpu c hc) hp pidHint options
    by_cases hqueued : k' c = []
    · obtain ⟨globalTasks, waitQueues, waitBlobs, w'', hrun, hcons'⟩ := hreturn hqueued
      rw [hrun] at hres
      have hawaited := hscan.awaited
      obtain ⟨_, _, _, _, rfl⟩ := hscan.same
      rw [Except.ok.inj hres]
      refine ⟨hcpu, _, _, _, _, _, hcons', ?_⟩
      refine hwatch.frame (fun t => ⟨(s.tasks t).state, rfl⟩) (reapedList_sublist g _).subset
        fun p wait hpend hstate => ⟨hpend, hstate, ?_⟩
      have hpc : p ≠ c := by
        rintro rfl
        exact Option.some_ne_none wait (hpend.symm.trans hp)
      exact (congrFun hawaited p).trans (Function.update_of_ne hpc _ _)
    · obtain ⟨rfl, hhang⟩ := hscan.all_of_exitedFirst (hg.trans hd)
        (fun hhang => horder hhang c hc) (hcons.awaited_nil hp) hqueued hfound
      rw [List.append_nil] at hd
      subst hd
      obtain ⟨s'', hrun, hs''⟩ := (hcons.block hcpu hc
        ⟨ret, target, pidHint, options⟩ hfound.target_ne_none
        (List.append_nil g).symm hscan).watchful_dispatch (hwatch.block hscan hhang)
      rw [hblock hqueued, hrun] at hres
      rwa [Except.ok.inj hres]
  · obtain ⟨s'', hrun, hs''⟩ := (hcons.exit hc hp).watchful_dispatch (hwatch.exit hcons c)
    rw [hcons.doExit_eq hcpu hc, hrun] at hres
    rwa [Except.ok.inj hres]
  · obtain ⟨globalTasks, waitQueues, waitBlobs, w', hrun, hcons'⟩ :=
      hcons.finish c wait.options (hcons.targets c wait hp)
    rw [resumeWait4, hrun] at hres
    rw [Except.ok.inj hres]
    refine ⟨hcpu, _, _, _, _, _, hcons', ?_⟩
    refine hwatch.frame (fun t => ⟨(s.tasks t).state, rfl⟩) (reapedList_sublist g _).subset ?_
    intro p wait' hpend hstate
    have hpc : p ≠ c := by
      rintro rfl
      simp at hpend
    have hpend' : s.pending p = some wait' := by
      simpa [Function.update_of_ne hpc] using hpend
    refine ⟨hpend', hstate, ?_⟩
    simp [Sched.awaited, Function.update_of_ne hpc]

theorem Sched.settledWatchful_of_reachable {s : Sched}
    (h : (schedRuns.restrict waitsInOrder).Reachable s) : s.SettledWatchful := by
  refine h.invariant ?_ ?_
  · intro s₀ hboot
    obtain ⟨s₁, hrun, ⟨hcpu, r, b, g, w, k, hcons⟩, hquiet⟩ := boot_spec
    obtain rfl : s₁ = s₀ := Except.ok.inj (hrun.symm.trans hboot)
    refine ⟨hcpu, r, b, g, w, k, hcons, ?_⟩
    intro p wait t hp
    rw [hquiet p] at hp
    cases hp
  · rintro s₁ action s₂ hwatch ⟨horder, hstep⟩
    exact hwatch.step horder hstep

/-- A call of `wait4` with an exited child returns one exactly when it finds an
exited child first or must not hang. -/
theorem Sched.Settled.callWait4_returns_iff {s : Sched} (h : s.Settled) {c t : TaskId}
    (hc : s.current = some c) (hpending : s.pending c = none) {pidHint : Word} (options : Word)
    (ht : t ∈ s.globalTasks.toList ()) (hmatch : s.matching c pidHint t = true)
    (hexit : (s.tasks t).waitStateExited = true) :
    (∃ u s', u ∈ s.globalTasks.toList () ∧ s.matching c pidHint u = true ∧
      (s.tasks u).waitStateExited = true ∧
      callWait4 s c pidHint options = .ok (some (s.tasks u).pid, s')) ↔
    waitsInOrder s (.wait4 pidHint options) := by
  obtain ⟨hcpu, r, b, g, w, k, hcons⟩ := h
  have hg : s.globalTasks.toList () = g := hcons.registered.toList ()
  obtain ⟨d, l, s₁, w', k', ret, target, hd, hscan, hfound, hblock, hreturn⟩ :=
    hcons.callWait4 (hcpu c hc) hpending pidHint options
  -- The scan stopped at an exited task, for `t` has exited.
  obtain ⟨u, l', hl, hmatchu, hexitu, hret⟩ : ∃ u l', l = u :: l' ∧
      s.matching c pidHint u = true ∧ (s.tasks u).waitStateExited = true ∧
      ret = (s.tasks u).pid := by
    rcases hfound with ⟨hl, -⟩ | ⟨u, l', hl, hmatchu, hexitu, hret, -⟩
    · rw [hg, hd, hl, List.append_nil] at ht
      rw [hscan.live t ht hmatch] at hexit
      cases hexit
    · exact ⟨u, l', hl, hmatchu, hexitu, hret⟩
  constructor
  · rintro ⟨v, s', -, -, -, hrun⟩ hhang c' hc' -
    obtain rfl : c = c' := Option.some.inj (hc.symm.trans hc')
    have hqueued : k' c = [] := by
      by_contra hqueued
      rw [hblock hqueued] at hrun
      obtain ⟨s'', -, hs''⟩ := bind_eq_ok.mp hrun
      cases hs''
    have hnone : d.filter (s.matching c pidHint) = [] := by
      have := congrFun hscan.awaited c
      rw [Function.update_self, hcons.awaited_nil hpending, List.nil_append, hhang, Sched.awaited,
        hqueued] at this
      exact this.symm
    refine ⟨u, ?_, hexitu⟩
    rw [hg, hd, hl, List.find?_append, List.find?_eq_none.mpr, Option.none_or,
      List.find?_cons_of_pos hmatchu]
    · rfl
    · exact List.filter_eq_nil_iff.mp hnone
  · intro horder
    have hqueued : k' c = [] := by
      by_contra hqueued
      have := (hscan.all_of_exitedFirst (hg.trans hd) (fun hhang => horder hhang c hc)
        (hcons.awaited_nil hpending) hqueued hfound).1
      rw [hl] at this
      cases this
    obtain ⟨globalTasks, waitQueues, waitBlobs, w'', hrun, -⟩ := hreturn hqueued
    rw [hret] at hrun
    exact ⟨u, _, by simp [hg, hd, hl], hmatchu, hexitu, hrun⟩

/-! ## Sleeping past an exited child -/

/-- If every wait is in order, no task sleeps past an exited child.  A call with an
exited child in the task list returns an exited child without blocking, exactly
when it is in order itself. -/
theorem wait4_wakes_for_exited {s : Sched}
    (h : (schedRuns.restrict waitsInOrder).Reachable s) :
    s.NoOversleep ∧
    ∀ c t pidHint options, s.current = some c → s.pending c = none →
      t ∈ s.globalTasks.toList () → (s.tasks t).parent = some c →
      s.matching c pidHint t = true → (s.tasks t).waitStateExited = true →
      ((∃ u s', u ∈ s.globalTasks.toList () ∧ s.matching c pidHint u = true ∧
        (s.tasks u).waitStateExited = true ∧
        callWait4 s c pidHint options = .ok (some (s.tasks u).pid, s')) ↔
      waitsInOrder s (.wait4 pidHint options)) := by
  constructor
  · obtain ⟨-, r, b, g, w, k, hcons, hwatch⟩ := Sched.settledWatchful_of_reachable h
    intro p wait t hp hstate ht hparent hmatch
    rw [hcons.registered.toList ()] at ht
    exact (hwatch p wait t hp hstate ht hparent hmatch).1
  · intro c t pidHint options hc hpending ht _ hmatch hexit
    exact (Sched.settled_of_reachable h.of_restrict).callWait4_returns_iff hc hpending options ht
      hmatch hexit

/-- A step whose wait is in order. -/
def Sched.followInOrder (s : Sched) (action : TaskAction) : Option Sched :=
  if waitsInOrder s action then s.follow action else none

theorem reachable_of_followInOrder {actions : List TaskAction} {s : Sched}
    (h : boot.toOption.bind (actions.foldlM Sched.followInOrder) = some s) :
    (schedRuns.restrict waitsInOrder).Reachable s := by
  obtain ⟨s₀, hboot, hrun⟩ := Option.bind_eq_some_iff.mp h
  have hinit : boot = .ok s₀ := toOption_eq_some.mp hboot
  refine (System.Reachable.init (M := schedRuns.restrict waitsInOrder) hinit).foldlM ?_ hrun
  intro s₁ action s₂ hstep
  unfold Sched.followInOrder at hstep
  split at hstep
  next horder => exact ⟨horder, schedRuns_step_of_follow hstep⟩
  next => cases hstep

/-- A child exits before its parent calls `wait4`: the call returns the child. -/
theorem wait4_wakes_for_exited_only_child :
    ∃ s, (schedRuns.restrict waitsInOrder).Reachable s ∧ s.NoOversleep ∧ s.current = some 0 ∧
      (s.tasks 1).waitStateExited = true ∧
      ∃ u s', callWait4 s 0 (-1) 0 = .ok (some (s.tasks u).pid, s') := by
  have hrun : (boot.toOption.bind
      ([.yield, .clone 0, .yield, .exit].foldlM Sched.followInOrder)).map (fun s => decide
        (s.current = some 0 ∧ (s.pending 0).isNone ∧ s.globalTasks.toList () = [0, 1] ∧
          (s.tasks 1).parent = some 0 ∧ (s.tasks 1).waitStateExited = true ∧
          s.matching 0 (-1) 1 = true ∧ waitsInOrder s (.wait4 (-1) 0))) = some true := by
    decide +kernel
  obtain ⟨s, hs, hview⟩ := Option.map_eq_some_iff.mp hrun
  obtain ⟨hcurrent, hpending, hlist, hparent, hexit, hmatch, horder⟩ := of_decide_eq_true hview
  rw [Option.isNone_iff_eq_none] at hpending
  have hreach := reachable_of_followInOrder hs
  obtain ⟨hno, hcall⟩ := wait4_wakes_for_exited hreach
  obtain ⟨u, s', -, -, -, hreturn⟩ := (hcall 0 1 (-1) 0 hcurrent hpending (by simp [hlist]) hparent
    hmatch hexit).mpr horder
  exact ⟨s, hreach, hno, hcurrent, hexit, u, s', hreturn⟩

/-- A parent has two children, and the second exits.  The parent then calls
`wait4`, and sleeps. -/
theorem wait4_oversleeps : ∃ s, schedRuns.Reachable s ∧ ¬ s.NoOversleep := by
  have hrun : (schedRun [.yield, .clone 0, .clone 0, .yield, .yield, .exit, .wait4 (-1) 0]).map
      (fun s => decide ((s.pending 0).map PendingWait.pidHint = some (-1) ∧
        (s.tasks 0).state = .interruptible ∧ s.globalTasks.toList () = [0, 1, 2] ∧
        (s.tasks 2).parent = some 0 ∧ s.matching 0 (-1) 2 = true ∧
        (s.tasks 2).waitStateExited = true)) = some true := by
    decide +kernel
  obtain ⟨s, hs, hview⟩ := Option.map_eq_some_iff.mp hrun
  obtain ⟨hpending, hstate, hlist, hparent, hmatch, hexit⟩ := of_decide_eq_true hview
  obtain ⟨wait, hwait, hhint⟩ := Option.map_eq_some_iff.mp hpending
  refine ⟨s, reachable_of_schedRun hs, fun hno => ?_⟩
  have := hno 0 wait 2 hwait hstate (by simp [hlist]) hparent (hhint ▸ hmatch)
  rw [hexit] at this
  cases this

end Hyrule
