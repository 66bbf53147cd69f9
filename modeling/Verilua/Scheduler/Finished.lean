import Verilua.Scheduler.Removal

/-!
# Finished coroutines

A body that returns, or yields `EarlyExit`, leaves its coroutine in `task_coroutine_map` and its id
in the running map until the next drain. The coroutine is not resumed again in every run in which
a task finishes with no registration left, and no pass reaches an id that waits for the drain.
-/

namespace Verilua

open TransitionSystem

variable {m m' : Machine} {a : Act} {mode : Mode} {ok : Machine → Act → Prop} {id : TaskID}
  {th : ThreadID}

/-- The current coroutine of `id` has finished. -/
def Machine.finished (m : Machine) (id : TaskID) : Prop :=
  ∃ th t, m.sched.taskCoroutineMap id = some th ∧ m.threads th = some t ∧ t.finished = true

/-! ### The edge tables belong to one scheduler -/

/-- `posedge_tasks` and `negedge_tasks` are filled in `EDGE_STEP` only. -/
def EdgesUnused (m : Machine) : Prop :=
  m.mode ≠ .edgeStep → m.sched.posedgeTasks = ∅ ∧ m.sched.negedgeTasks = ∅

lemma startTask_edges (m : Machine) (id : TaskID) (startNow : Bool) :
    (m.startTask id startNow).mode = m.mode ∧
      (m.startTask id startNow).sched.posedgeTasks = m.sched.posedgeTasks ∧
      (m.startTask id startNow).sched.negedgeTasks = m.sched.negedgeTasks := by
  unfold Machine.startTask
  split_ifs <;> exact ⟨rfl, rfl, rfl⟩

lemma EdgesUnused.step (h : EdgesUnused m) (hr : Rule m a m') (hf : m'.fault = none) :
    EdgesUnused m' := by
  cases hr with
  | fault hf' | removeFault _ hf' | resumeFault _ _ _ _ _ _ _ _ _ hf' => simp [hf] at hf'
  | skip id =>
    intro hmode
    have hk := keeps_skip m.sched id
    exact ⟨hk.posedgeTasks.trans (h hmode).1, hk.negedgeTasks.trans (h hmode).2⟩
  | resume =>
    intro hmode
    have hk := keeps_drainPendingRemoval m.sched
    exact ⟨hk.posedgeTasks.trans (h hmode).1, hk.negedgeTasks.trans (h hmode).2⟩
  | yieldedLoop id th oldCurr y | yieldedReturn id th oldCurr y =>
    intro hmode
    obtain ⟨hp, hn⟩ := mem_settle_edges m.sched m.mode id oldCurr y
    rw [(h hmode).1] at hp
    rw [(h hmode).2] at hn
    exact ⟨Finset.eq_empty_of_forall_notMem fun i hi => absurd (hp i hi) (Finset.notMem_empty i),
      Finset.eq_empty_of_forall_notMem fun i hi => absurd (hn i hi) (Finset.notMem_empty i)⟩
  | append user id name body startNow s hs hc =>
    intro hmode
    obtain ⟨hmode', hp, hn⟩ := startTask_edges
      (Machine.installTask { m with sched := s } id name body) id startNow
    have hk := keeps_clearUserRemoval s id
    obtain ⟨hposedge, hnegedge⟩ := h (hmode' ▸ hmode)
    exact ⟨hp.trans (hk.posedgeTasks.trans (hc.edges.1.trans hposedge)),
      hn.trans (hk.negedgeTasks.trans (hc.edges.2.trans hnegedge))⟩
  | restart _ id name body s hs hc =>
    exact fun hmode => ⟨hc.keeps.posedgeTasks.trans (h hmode).1,
      hc.keeps.negedgeTasks.trans (h hmode).2⟩
  | newEventHdl name user e s hs hc =>
    exact fun hmode => ⟨hc.edges.1.trans (h hmode).1, hc.edges.2.trans (h hmode).2⟩
  | remove id | removeWaiting id =>
    intro hmode
    have hk := keeps_flagUserRemoval m.sched id
    exact ⟨hk.posedgeTasks.trans (h hmode).1, hk.negedgeTasks.trans (h hmode).2⟩
  | awaitPosedge _ _ _ _ _ hm | awaitNegedge _ _ _ _ _ hm => exact fun hmode => absurd hm hmode
  | _ => exact h

lemma edgesUnused_of_reached (h : Machine.Reached mode ok m) :
    m.fault = none → EdgesUnused m := by
  refine Reach.invariant (I := fun m : Machine => m.fault = none → EdgesUnused m) h
    (fun _ _ => ⟨rfl, rfl⟩) ?_
  intro m a m' _ ih _ hs hf
  obtain ⟨hm, hr⟩ := Rule.of_step hs
  exact (ih hm).step hr hf

/-! ### How a coroutine becomes finished -/

lemma update_thread_finished {f : ThreadID → Option Thread} {th₀ : ThreadID} {t' : Thread}
    {y : Yielded}
    (h : Function.update f th₀ ((f th₀).map fun t =>
      { t with status := y.status, finished := t.finished || y.finishes }) th = some t')
    (hfin : t'.finished = true) :
    (∃ t, f th = some t ∧ t.finished = true) ∨ th = th₀ ∧ y.finishes = true := by
  by_cases heq : th = th₀
  · subst heq
    rw [Function.update_self] at h
    obtain ⟨t, ht, rfl⟩ := Option.map_eq_some_iff.mp h
    rcases Bool.or_eq_true_iff.mp hfin with hfin | hfin
    · exact .inl ⟨t, ht, hfin⟩
    · exact .inr ⟨rfl, hfin⟩
  · rw [Function.update_of_ne heq] at h
    exact .inl ⟨t', h, hfin⟩

/-- A coroutine that is finished after a step was finished before it, or the step was its last
`coro_yield`, or its return. -/
lemma Rule.finished (hr : Rule m a m') (hc : Coroutines m) (hf : m'.fault = none) {t' : Thread}
    (hth : m'.sched.taskCoroutineMap id = some th) (ht : m'.threads th = some t')
    (hfin : t'.finished = true) :
    (m.sched.taskCoroutineMap id = some th ∧ (∃ t, m.threads th = some t ∧ t.finished = true) ∧
      ∀ th', m'.log ≠ .create id th' :: m.log) ∨
    ∃ oldCurr y rest, m'.stack = .resumed id th oldCurr y :: rest ∧ y.finishes = true := by
  have hne : ∀ th', m.log ≠ .create id th' :: m.log := fun th' h => (List.cons_ne_self _ _).symm h
  cases hr with
  | fault hf' | removeFault _ hf' | resumeFault _ _ _ _ _ _ _ _ _ hf' => simp [hf] at hf'
  | skip id₀ =>
    exact .inl ⟨(keeps_skip m.sched id₀).taskCoroutineMap ▸ hth, ⟨t', ht, hfin⟩, fun th' h => by cases h⟩
  | resume id₀ rest cnt th₀ t hs _ _ _ ht₀ =>
    refine .inl ⟨(keeps_drainPendingRemoval m.sched).taskCoroutineMap ▸ hth, ?_, fun th' h => by cases h⟩
    dsimp only at ht
    by_cases heq : th = th₀
    · subst heq
      rw [Function.update_self] at ht
      cases ht
      exact ⟨t, ht₀, hfin⟩
    · rw [Function.update_of_ne heq] at ht
      exact ⟨t', ht, hfin⟩
  | yieldedLoop id₀ th₀ oldCurr y | yieldedReturn id₀ th₀ oldCurr y =>
    refine .inl ⟨(settle_taskCoroutineMap ..) ▸ hth, ⟨t', ht, hfin⟩, fun th' h => ?_⟩
    dsimp only at h
    split_ifs at h
    · cases h
    · exact hne th' h
  | append user id₀ name body startNow s hs hch =>
    rw [startTask_threads.2] at hth
    rw [startTask_threads.1] at ht
    obtain ⟨hne', hth, ht⟩ := hc.finished_coroCreate
      ((keeps_clearUserRemoval s id₀).taskCoroutineMap.trans hch.taskCoroutineMap) hth ht hfin
    refine .inl ⟨hth, ⟨t', ht, hfin⟩, fun th' h => hne' ?_⟩
    rw [startTask_log] at h
    cases h
    rfl
  | restart _ id₀ name body s hs hcl =>
    obtain ⟨hne', hth, ht⟩ := hc.finished_coroCreate (s := { s with
      taskNameMapRunning := s.taskNameMapRunning.insert id₀ name
      taskFiredStatusMap := Function.update s.taskFiredStatusMap id₀ true })
      hcl.keeps.taskCoroutineMap hth ht hfin
    exact .inl ⟨hth, ⟨t', ht, hfin⟩, fun th' h => hne' (by cases h; rfl)⟩
  | newEventHdl name user e s hs hch =>
    exact .inl ⟨hch.taskCoroutineMap ▸ hth, ⟨t', ht, hfin⟩, hne⟩
  | remove id₀ | removeWaiting id₀ =>
    exact .inl ⟨(keeps_flagUserRemoval m.sched id₀).taskCoroutineMap ▸ hth, ⟨t', ht, hfin⟩,
      fun th' h => by cases h⟩
  | loopWake | send | insertWaiter => exact .inl ⟨hth, ⟨t', ht, hfin⟩, fun th' h => by cases h⟩
  | wait e l id₀ th₀ oldCurr rest =>
    refine .inl ⟨hth, ?_, fun th' h => by cases h⟩
    exact (update_thread_finished ht hfin).resolve_right fun h => by cases h.2
  | awaitCallback always id₀ th₀ oldCurr rest =>
    refine .inl ⟨hth, ?_, hne⟩
    exact (update_thread_finished ht hfin).resolve_right fun h => by cases h.2
  | yield y id₀ th₀ oldCurr rest hs =>
    rcases update_thread_finished ht hfin with hold | ⟨rfl, hy⟩
    · exact .inl ⟨hth, hold, hne⟩
    · right
      have hrun : (id₀, th) ∈ m.runs := by
        rw [Machine.runs, hs]
        exact List.mem_cons_self
      obtain rfl := (hc.runs _ hrun).2 id hth
      exact ⟨oldCurr, y, rest, rfl, hy⟩
  | _ => exact .inl ⟨hth, ⟨t', ht, hfin⟩, hne⟩

/-! ### A finished task is retired -/

lemma Rule.running_pending (hr : Rule m a m') (hc : m.sched.Counted) (hf : m'.fault = none)
    (h : id ∈ m.sched.taskNameMapRunning → id ∈ m.sched.pendingRemovalTasks)
    (hcreate : ∀ th, m'.log ≠ .create id th :: m.log) (hid : id ∈ m'.sched.taskNameMapRunning) :
    id ∈ m'.sched.pendingRemovalTasks := by
  have hold : id ∈ m.sched.taskNameMapRunning :=
    (hr.mem_running hc hf hid).resolve_right fun ⟨th, hlog⟩ => hcreate th hlog
  cases hr with
  | fault hf' | removeFault _ hf' | resumeFault _ _ _ _ _ _ _ _ _ hf' => simp [hf] at hf'
  | skip id₀ =>
    simp only [Scheduler.unregister, clearUserRemoval_running, Finmap.mem_erase] at hid
    exact absurd (h hold) (hc.mem_drain.mp hid.2).2
  | resume => exact absurd (h hold) (hc.mem_drain.mp hid).2
  | yieldedLoop id₀ th oldCurr y | yieldedReturn id₀ th oldCurr y =>
    show id ∈ (m.sched.settle m.mode id₀ oldCurr y).pendingRemovalTasks
    rw [settle_pending]
    split_ifs
    · exact List.mem_append_left _ (h hold)
    · exact h hold
  | append user id₀ name body startNow s hs hch =>
    rw [installTask_pending]
    exact hch.running.2.2 ▸ h hold
  | restart _ id₀ name body s hs hcl =>
    refine (hcl.mem_pending fun heq => ?_).mpr (h hold)
    subst heq
    exact hcreate m.nextThread rfl
  | newEventHdl name user e s hs hch => exact hch.running.2.2 ▸ h hold
  | remove id₀ | removeWaiting id₀ => exact (flagUserRemoval_pending m.sched id₀).symm ▸ h hold
  | _ => exact h hold

/-- When the current coroutine of `id` finishes, nothing else will schedule `id` or runs its code,
and `id` is in at most one of the edge tables; and a pass over all tasks calls no id that waits for
the drain. -/
def Machine.finishesLast (m : Machine) : Act → Bool
  | .yielded =>
    match m.stack with
    | .resumed id th _ y :: rest =>
      !y.finishes || decide (m.sched.taskCoroutineMap id ≠ some th) ||
        !m.awaited rest id && decide (id ∉ m.sched.posedgeTasks ∨ id ∉ m.sched.negedgeTasks)
    | _ => true
  | .pick id =>
    match m.stack with
    | .pass .all _ _ _ :: _ => decide (id ∉ m.sched.pendingRemovalTasks) ||
        decide (m.mode = .normal) && m.sched.taskFiredStatusMap id
    | _ => true
  | _ => true

/-- A finished id waits for the drain if it is in the running map at all, and nothing else will
schedule it. -/
structure Retired (m : Machine) (id : TaskID) : Prop where
  drained : id ∈ m.sched.taskNameMapRunning → id ∈ m.sched.pendingRemovalTasks
  idle : Idle m id

/-- `schedule_task` has not yet put the id of a finished coroutine on the pending list. -/
def Leaving (m : Machine) (id : TaskID) (th : ThreadID) : Prop :=
  ∃ oldCurr y rest, m.stack = .resumed id th oldCurr y :: rest ∧ y.finishes = true

def FinishedRetired (m : Machine) : Prop :=
  ∀ id th t, m.sched.taskCoroutineMap id = some th → m.threads th = some t → t.finished = true →
    Leaving m id th ∨ Retired m id

lemma Retired.step (h : Retired m id) (hcount : m.sched.Counted) (hcurr : CurrentTask m)
    (hok : m.finishesLast a = true) (hr : Rule m a m') (hf : m'.fault = none)
    (hcreate : ∀ th, m'.log ≠ .create id th :: m.log) : Retired m' id := by
  refine ⟨hr.running_pending hcount hf h.drained hcreate, h.idle.step hcurr.curr hr hf ?_ hcreate⟩
  rintro rfl hrun ⟨start, visited, rest, hs⟩ hfired
  simp only [Machine.finishesLast, hs, h.drained hrun, not_true_eq_false, decide_false,
    Bool.false_or, Bool.and_eq_true, decide_eq_true_eq] at hok
  rw [hfired hok.1] at hok
  cases hok.2

/-- `_remove_task` takes a finishing task off the one edge table that it is in. -/
lemma settle_edges (oldCurr : TaskID) {y : Yielded} (hedges : EdgesUnused m)
    (hy : y.finishes = true) (h : id ∉ m.sched.posedgeTasks ∨ id ∉ m.sched.negedgeTasks) :
    id ∉ (m.sched.settle m.mode id oldCurr y).posedgeTasks ∧
      id ∉ (m.sched.settle m.mode id oldCurr y).negedgeTasks := by
  unfold Scheduler.settle Scheduler.removeTask'
  rw [if_pos hy]
  dsimp only
  split_ifs with hmode hpos hneg
  · exact ⟨Finset.notMem_erase _ _, h.resolve_left fun hn => hn hpos⟩
  · exact ⟨hpos, Finset.notMem_erase _ _⟩
  · exact ⟨hpos, hneg⟩
  · obtain ⟨hp, hn⟩ := hedges hmode
    exact ⟨by simp [hp], by simp [hn]⟩

lemma step_of_resumed {oldCurr : TaskID} {y : Yielded} {rest : List Frame}
    (hs : m.stack = .resumed id th oldCurr y :: rest) (h : m.step a = some m') :
    a = .yielded ∧ m' = m.taskYielded id th oldCurr y rest := by
  unfold Machine.step at h
  split_ifs at h
  rw [hs] at h
  cases a with
  | yielded =>
    cases h
    exact ⟨rfl, rfl⟩
  | _ => cases h

lemma Retired.of_leaving (hleave : Leaving m id th) (hth : m.sched.taskCoroutineMap id = some th)
    (hedges : EdgesUnused m) (hok : m.finishesLast a = true) (hstep : m.step a = some m')
    (hf : m'.fault = none) : Retired m' id := by
  obtain ⟨oldCurr, y, rest, hs, hy⟩ := hleave
  obtain ⟨rfl, rfl⟩ := step_of_resumed hs hstep
  simp only [Machine.finishesLast, hs, hy, hth, Bool.not_true, ne_eq, not_true_eq_false,
    decide_false, Bool.false_or, Bool.and_eq_true, Bool.not_eq_true', decide_eq_true_eq] at hok
  obtain ⟨hcb, hwait, hrest⟩ := not_awaited hok.1
  have ht := settle_eventTables m.sched m.mode id oldCurr y
  have hpending : id ∈ (m.sched.settle m.mode id oldCurr y).pendingRemovalTasks := by
    rw [settle_pending, if_pos hy]
    simp
  obtain ⟨hp, hn⟩ := settle_edges oldCurr hedges hy hok.2
  have hunknown : y ≠ .unknown := by rintro rfl; cases hy
  unfold Machine.taskYielded
  rw [if_neg hunknown]
  dsimp only
  split_ifs
  · refine ⟨fun _ => hpending, hcb, fun e w hw => hwait e w ?_, fun f hf => ?_, hp, hn⟩
    · exact congrArg EventTables.waiting ht ▸ hw
    · rcases List.mem_cons.mp hf with rfl | hf
      · rfl
      · exact hrest f hf
  · exact ⟨fun _ => hpending, hcb, fun e w hw => hwait e w (congrArg EventTables.waiting ht ▸ hw),
      hrest, hp, hn⟩

lemma FinishedRetired.step (h : FinishedRetired m) (hc : Coroutines m) (hcount : m.sched.Counted)
    (hcurr : CurrentTask m) (hedges : EdgesUnused m) (hok : m.finishesLast a = true)
    (hstep : m.step a = some m') (hf : m'.fault = none) : FinishedRetired m' := by
  intro id th t hth ht hfin
  have hr := (Rule.of_step hstep).2
  rcases hr.finished hc hf hth ht hfin with ⟨hth', ⟨t', ht', hfin'⟩, hcreate⟩ | ⟨o, y, rest, hs, hy⟩
  · rcases h id th t' hth' ht' hfin' with hleave | hret
    · exact .inr (.of_leaving hleave hth' hedges hok hstep hf)
    · exact .inr (hret.step hcount hcurr hok hr hf hcreate)
  · exact .inl ⟨o, y, rest, hs, hy⟩

lemma FinishedRetired.not_finished (h : FinishedRetired m) {rest : List Frame} {t : Thread}
    (hs : m.stack = .call id :: rest) (hth : m.sched.taskCoroutineMap id = some th)
    (ht : m.threads th = some t) : t.finished = false := by
  by_contra hfin
  rcases h id th t hth ht (by simpa using hfin) with ⟨o, y, rest', hs', -⟩ | hret
  · rw [hs] at hs'
    cases hs'
  · have hcall := hret.idle.stack (.call id) (hs ▸ List.mem_cons_self)
    simp [Frame.holds] at hcall

lemma no_finished_resumed_step (h : ∀ id th, .resume id th true ∉ m.log) (hfin : FinishedRetired m)
    (hr : Rule m a m') : ∀ id th, .resume id th true ∉ m'.log := by
  intro id₁ th₁ hmem
  cases hr with
  | fault _ hlog => exact h id₁ th₁ (hlog ▸ hmem)
  | removeFault _ _ hlog =>
    rw [hlog] at hmem
    exact h id₁ th₁ (by simpa using hmem)
  | resumeFault id rest th t hs hskip hth ht _ _ hlog =>
    rw [hlog, hfin.not_finished hs hth ht] at hmem
    exact h id₁ th₁ (by simpa using hmem)
  | resume id rest cnt th t hs hskip hcnt hth ht =>
    rw [hfin.not_finished hs hth ht] at hmem
    exact h id₁ th₁ (by simpa using hmem)
  | yieldedLoop id₀ th oldCurr y | yieldedReturn id₀ th oldCurr y =>
    dsimp only at hmem
    split_ifs at hmem
    · exact h id₁ th₁ (by simpa using hmem)
    · exact h id₁ th₁ hmem
  | append user id₀ name body startNow s =>
    rw [startTask_log] at hmem
    exact h id₁ th₁ (by simpa [Machine.installTask, Machine.coroCreate] using hmem)
  | skip | loopWake | send | restart | remove | removeWaiting | wait | insertWaiter =>
    exact h id₁ th₁ (by simpa [Machine.call, Machine.coroCreate, Machine.sendEvent] using hmem)
  | _ => exact h id₁ th₁ hmem

/-- In a run whose tasks finish with no registration left, and whose passes call no id that waits
for the drain, no finished coroutine is resumed; and once `schedule_task` has put it on the pending
list, a finished task is in neither edge table and leaves the running map with the next drain. -/
theorem no_finished_resumed
    (h : Machine.Reached mode (fun m a => m.finishesLast a = true) m) :
    (∀ id th, .resume id th true ∉ m.log) ∧
    (m.fault = none → ∀ id, m.finished id → (∃ th, Leaving m id th) ∨
      id ∉ m.sched.posedgeTasks ∧ id ∉ m.sched.negedgeTasks ∧
        (id ∈ m.sched.taskNameMapRunning → id ∈ m.sched.pendingRemovalTasks)) := by
  have hinv : (∀ id th, .resume id th true ∉ m.log) ∧ (m.fault = none → FinishedRetired m) := by
    refine Reach.invariant (I := fun m : Machine => (∀ id th, .resume id th true ∉ m.log) ∧
      (m.fault = none → FinishedRetired m)) h ⟨by simp [Machine.init], fun _ => ?_⟩ ?_
    · intro id th t hth
      simp [Machine.init, Scheduler.init] at hth
    · rintro m a m' hm ⟨hlog, hfin⟩ hok hs
      obtain ⟨hf, hr⟩ := Rule.of_step hs
      exact ⟨no_finished_resumed_step hlog (hfin hf) hr, (hfin hf).step (coroutines_of_reached hm hf)
        (counted_of_reached hm hf) (currentTask_of_reached hm hf) (edgesUnused_of_reached hm hf) hok hs⟩
  refine ⟨hinv.1, fun hf id hid => ?_⟩
  obtain ⟨th, t, hth, ht, hfin⟩ := hid
  rcases hinv.2 hf id th t hth ht hfin with hleave | hret
  · exact .inl ⟨th, hleave⟩
  · exact .inr ⟨hret.idle.posedge, hret.idle.negedge, hret.drained⟩

/-- The only task of a `STEP` simulation returns. The next pass finds its id in the running map, and
`schedule_task` drains the id and resumes the dead coroutine. -/
def onlyTaskReturns : List Act :=
  [.appendTask none "A" 0 true,
   .startPass .all, .pick 1, .enter, .yield .returned, .yielded, .endPass,
   .startPass .all, .pick 1, .enter]

theorem not_no_finished_resumed :
    ¬ ∀ mode m, Machine.Reached mode Unguarded m → ∀ id th, .resume id th true ∉ m.log := by
  intro h
  have hrun : (run Machine.step (Machine.init .step) onlyTaskReturns).map
      (fun m => decide (.resume 1 0 true ∈ m.log)) = some true := by decide +kernel
  obtain ⟨m, hm, hlog⟩ := Option.map_eq_some_iff.mp hrun
  exact h .step m (reach_of_run hm) 1 0 (of_decide_eq_true hlog)

/-- One of two tasks returns, and the call of the other drains it. -/
def oneOfTwoReturns : List Act :=
  [.appendTask none "A" 0 true, .appendTask none "B" 1 true,
   .startPass .all, .pick 1, .enter, .yield .returned, .yielded,
   .pick 2, .enter, .yield .noop, .yielded, .endPass,
   .startPass .all, .pick 2, .enter, .yield .noop, .yielded, .endPass]

theorem no_finished_resumed_of_oneOfTwoReturns :
    ∃ m, runChecked Machine.step (fun m a => m.finishesLast a = true) (Machine.init .step)
        oneOfTwoReturns = some m ∧
      .finish 1 0 ∈ m.log ∧ ∀ id th, .resume id th true ∉ m.log := by
  have hrun : (runChecked Machine.step (fun m a => m.finishesLast a = true) (Machine.init .step)
      oneOfTwoReturns).map (fun m => decide (.finish 1 0 ∈ m.log)) = some true := by
    decide +kernel
  obtain ⟨m, hm, hlog⟩ := Option.map_eq_some_iff.mp hrun
  exact ⟨m, hm, of_decide_eq_true hlog, (no_finished_resumed (reach_of_runChecked hm)).1⟩

end Verilua
