import Verilua.Scheduler.Finished

/-!
# Restarting tasks

`append_task` with a used id, `wakeup_task` and `try_wakeup_task` install a new coroutine for an id
that may still be on the pending list or flagged for removal on behalf of an earlier one. When
nothing of the kind is left behind, the new coroutine is in the running map and stays there; and a
stopped id can be restarted in all three ways exactly when it is in the running map if and only if
it is flagged.
-/

namespace Verilua

open TransitionSystem

variable {m m' : Machine} {a : Act} {mode : Mode} {ok : Machine → Act → Prop} {id : TaskID}
  {th : ThreadID}

/-! ### Steps that install no coroutine for an id -/

/-- The step installs a coroutine for `id`. -/
def Installs (m m' : Machine) (id : TaskID) : Prop := ∃ th, m'.log = .create id th :: m.log

/-- A coroutine is installed by `append_task` or by one of the wake-ups. -/
lemma Rule.installs (hr : Rule m a m') (hf : m'.fault = none) (h : Installs m m' id) :
    (∃ user name body startNow s, Chosen m.sched user id s ∧
      a = .appendTask user name body startNow ∧
      m' = (Machine.installTask { m with sched := s } id name body).startTask id startNow) ∨
    ∃ name body s, Cleaned m.sched id a s ∧ m' = (Machine.coroCreate { m with
      sched := { s with
        taskNameMapRunning := s.taskNameMapRunning.insert id name
        taskFiredStatusMap := Function.update s.taskFiredStatusMap id true } } id body).call id := by
  obtain ⟨th, hlog⟩ := h
  cases hr with
  | fault hf' | removeFault _ hf' | resumeFault _ _ _ _ _ _ _ _ _ hf' => simp [hf] at hf'
  | append user id₀ name body startNow s hs hch =>
    have hlog' := startTask_log.symm.trans hlog
    cases hlog'
    exact .inl ⟨user, name, body, startNow, s, hch, rfl, rfl⟩
  | restart _ id₀ name body s hs hcl =>
    cases hlog
    exact .inr ⟨name, body, s, hcl, rfl⟩
  | yieldedLoop | yieldedReturn =>
    dsimp only at hlog
    split_ifs at hlog
    · cases hlog
    · exact absurd hlog.symm (List.cons_ne_self _ _)
  | skip | resume | loopWake | send | remove | removeWaiting | wait | insertWaiter => cases hlog
  | _ => exact absurd hlog.symm (List.cons_ne_self _ _)

lemma Rule.coroutine_eq (hr : Rule m a m') (hf : m'.fault = none) (hno : ¬ Installs m m' id) :
    m'.sched.taskCoroutineMap id = m.sched.taskCoroutineMap id := by
  cases hr with
  | fault hf' | removeFault _ hf' | resumeFault _ _ _ _ _ _ _ _ _ hf' => simp [hf] at hf'
  | skip id₀ => exact congrFun (keeps_skip m.sched id₀).taskCoroutineMap id
  | resume => exact congrFun (keeps_drainPendingRemoval m.sched).taskCoroutineMap id
  | yieldedLoop | yieldedReturn => exact congrFun (settle_taskCoroutineMap ..) id
  | append user id₀ name body startNow s hs hch =>
    have hne : id ≠ id₀ := by rintro rfl; exact hno ⟨m.nextThread, startTask_log⟩
    rw [startTask_threads.2]
    simp only [Machine.installTask, Machine.coroCreate]
    rw [Function.update_of_ne hne, (keeps_clearUserRemoval s id₀).taskCoroutineMap,
      hch.taskCoroutineMap]
  | restart _ id₀ name body s hs hcl =>
    have hne : id ≠ id₀ := by rintro rfl; exact hno ⟨m.nextThread, rfl⟩
    simp only [Machine.call, Machine.coroCreate]
    rw [Function.update_of_ne hne, hcl.keeps.taskCoroutineMap]
  | newEventHdl name user e s hs hch => exact congrFun hch.taskCoroutineMap id
  | remove id₀ | removeWaiting id₀ =>
    exact congrFun (keeps_flagUserRemoval m.sched id₀).taskCoroutineMap id
  | _ => rfl

lemma Rule.thread_finished (hr : Rule m a m') (hc : Coroutines m) (hf : m'.fault = none)
    {t : Thread} (ht : m.threads th = some t) (hfin : t.finished = true) :
    ∃ t', m'.threads th = some t' ∧ t'.finished = true := by
  have hupd : ∀ (th₀ : ThreadID) (y : Yielded), ∃ t', Function.update m.threads th₀
      ((m.threads th₀).map fun t =>
        { t with status := y.status, finished := t.finished || y.finishes }) th = some t' ∧
      t'.finished = true := by
    intro th₀ y
    by_cases heq : th = th₀
    · subst heq
      rw [Function.update_self, ht]
      exact ⟨_, rfl, by simp [hfin]⟩
    · rw [Function.update_of_ne heq]
      exact ⟨t, ht, hfin⟩
  have hold : th ≠ m.nextThread := Nat.ne_of_lt (hc.bound th (by simp [ht]))
  cases hr with
  | fault hf' | removeFault _ hf' | resumeFault _ _ _ _ _ _ _ _ _ hf' => simp [hf] at hf'
  | resume id₀ rest cnt th₀ t₀ hs _ _ _ ht₀ =>
    dsimp only
    by_cases heq : th = th₀
    · subst heq
      rw [ht] at ht₀
      cases ht₀
      rw [Function.update_self]
      exact ⟨_, rfl, hfin⟩
    · rw [Function.update_of_ne heq]
      exact ⟨t, ht, hfin⟩
  | append =>
    rw [startTask_threads.1]
    simp only [Machine.installTask, Machine.coroCreate]
    rw [Function.update_of_ne hold]
    exact ⟨t, ht, hfin⟩
  | restart =>
    simp only [Machine.call, Machine.coroCreate]
    rw [Function.update_of_ne hold]
    exact ⟨t, ht, hfin⟩
  | wait _ _ _ th₀ | awaitCallback _ _ th₀ => exact hupd th₀ .noop
  | yield y _ th₀ => exact hupd th₀ y
  | _ => exact ⟨t, ht, hfin⟩

lemma Rule.removed_mono (hr : Rule m a m') (hf : m'.fault = none) (hno : ¬ Installs m m' id)
    (h : m.removed id) : m'.removed id := by
  unfold Machine.removed at *
  cases hr with
  | fault hf' | removeFault _ hf' | resumeFault _ _ _ _ _ _ _ _ _ hf' => simp [hf] at hf'
  | yieldedLoop | yieldedReturn => simpa [removedSince_finish] using h
  | append user id₀ name body startNow s hs hch =>
    have hne : id ≠ id₀ := by rintro rfl; exact hno ⟨m.nextThread, startTask_log⟩
    rw [startTask_log]
    simpa [Machine.installTask, Machine.coroCreate, removedSince, hne.symm] using h
  | restart _ id₀ =>
    have hne : id ≠ id₀ := by rintro rfl; exact hno ⟨m.nextThread, rfl⟩
    simpa [Machine.call, Machine.coroCreate, removedSince, hne.symm] using h
  | remove | removeWaiting => simp [removedSince, h]
  | _ => exact h

/-! ### The current coroutine is in the running map -/

/-- The current coroutine of `id` has neither finished nor been removed. -/
def Machine.Live (m : Machine) (id : TaskID) : Prop :=
  (m.sched.taskCoroutineMap id).isSome ∧ ¬ m.finished id ∧ ¬ m.removed id

lemma Rule.live (hr : Rule m a m') (hc : Coroutines m) (hf : m'.fault = none)
    (hno : ¬ Installs m m' id) (h : m'.Live id) : m.Live id := by
  obtain ⟨hsome, hfin, hrem⟩ := h
  have heq := hr.coroutine_eq hf hno
  refine ⟨heq ▸ hsome, ?_, fun hrem' => hrem (hr.removed_mono hf hno hrem')⟩
  rintro ⟨th, t, hth, ht, hdone⟩
  obtain ⟨t', ht', hdone'⟩ := hr.thread_finished hc hf ht hdone
  exact hfin ⟨th, t', heq.trans hth, ht', hdone'⟩

/-- A coroutine is installed for an id only when neither the pending list nor the removal flags
will name the id once the call has cleared its own marks; and a coroutine that finishes is the
current one of its task. -/
def Machine.restartsClean (m : Machine) : Act → Bool
  | .appendTask (some id) _ _ _ | .tryWakeupTask id => decide (id ∉ m.sched.pendingRemovalTasks)
  | .wakeupTask id =>
    if id ∉ m.sched.taskNameMapRunning then
      decide (id ∉ m.sched.pendingRemovalTasks ∧ id ∉ m.sched.userRemovalTasksSet)
    else if id ∈ m.sched.userRemovalTasksSet then decide (id ∉ m.sched.pendingRemovalTasks)
    else decide (m.sched.pendingRemovalTasks.count id ≤ 1)
  | .yielded =>
    match m.stack with
    | .resumed id th _ y :: _ => !y.finishes || decide (m.sched.taskCoroutineMap id = some th)
    | _ => true
  | _ => true

/-- A live id is in the running map, and neither a drain nor a flag will take it out. -/
structure Coherent (m : Machine) : Prop where
  live : ∀ id, m.Live id → id ∈ m.sched.taskNameMapRunning ∧ id ∉ m.sched.pendingRemovalTasks ∧
    id ∉ m.sched.userRemovalTasksSet
  known : ∀ id ∈ m.sched.pendingRemovalTasks, (m.sched.taskCoroutineMap id).isSome

/-- Where a finishing coroutine has been left, it is finished. -/
def LeavingFinished (m : Machine) : Prop :=
  ∀ id th, Leaving m id th → ∃ t, m.threads th = some t ∧ t.finished = true

lemma Nested.not_leaving (h : Nested m.stack) : ¬ Leaving m id th := by
  rintro ⟨oldCurr, y, rest, hs, -⟩
  rw [hs] at h
  exact h

lemma AtCode.not_leaving (h : AtCode m.stack) : ¬ Leaving m id th := by
  rintro ⟨oldCurr, y, rest, hs, -⟩
  rw [hs] at h
  exact h

lemma LeavingFinished.step (hc : Coroutines m) (hshape : Shaped m.stack) (hr : Rule m a m')
    (hf : m'.fault = none) : LeavingFinished m' := by
  intro id th hleave
  cases hr with
  | fault hf' | removeFault _ hf' | resumeFault _ _ _ _ _ _ _ _ _ hf' => simp [hf] at hf'
  | skip id₀ rest hs | yieldedReturn id₀ th₀ oldCurr y rest hs =>
    rw [hs] at hshape
    exact absurd hleave (Nested.not_leaving hshape)
  | loopClose next rest hs =>
    rw [hs] at hshape
    exact absurd hleave (Nested.not_leaving hshape)
  | resume | yieldedLoop | loopWake | loopNext | loopTake | startPass | pickFired | pick
  | passReturn | fire | restart =>
    obtain ⟨_, _, _, hs', -⟩ := hleave
    cases hs'
  | endPass kind start visited rest hs =>
    rw [hs] at hshape
    cases hshape.pass_bottom
    obtain ⟨_, _, _, hs', -⟩ := hleave
    cases hs'
  | append user id₀ name body startNow s hs hch =>
    obtain ⟨oldCurr, y, rest, hs', hy⟩ := hleave
    rcases startTask_stack (Machine.installTask { m with sched := s } id₀ name body)
      id₀ startNow with heq | heq
    · rw [heq] at hs'
      have hleave : Leaving m id th := ⟨oldCurr, y, rest, hs', hy⟩
      exact absurd hleave (AtCode.not_leaving hs)
    · rw [heq] at hs'
      cases hs'
  | newEventHdl _ _ _ _ hs | removeEvent _ hs | send _ hs | tryRunning _ hs | remove _ hs
  | removeWaiting _ _ _ _ _ hs => exact absurd hleave (AtCode.not_leaving hs)
  | insertWaiter e l id₀ th₀ oldCurr rest hs =>
    exact absurd hleave (AtCode.not_leaving (by rw [hs]; trivial))
  | awaitPosedge id₀ th₀ oldCurr rest hs | awaitNegedge id₀ th₀ oldCurr rest hs =>
    exact absurd hleave (AtCode.not_leaving (by rw [hs]; trivial))
  | wait e l id₀ th₀ oldCurr rest hs | awaitCallback _ id₀ th₀ oldCurr rest hs =>
    obtain ⟨_, _, _, hs', hy⟩ := hleave
    cases hs'
    cases hy
  | yield y id₀ th₀ oldCurr rest hs =>
    obtain ⟨_, _, _, hs', hy⟩ := hleave
    cases hs'
    have hrun : (id, th) ∈ m.runs := by
      rw [Machine.runs, hs]
      exact List.mem_cons_self
    obtain ⟨t, ht⟩ := Option.isSome_iff_exists.mp (hc.runs _ hrun).1
    refine ⟨{ t with status := y.status, finished := t.finished || y.finishes }, ?_, by simp [hy]⟩
    have ht' : m.threads th = some t := ht
    simp [Machine.coroYield, ht']

lemma leavingFinished_of_reached (h : Machine.Reached mode ok m) :
    m.fault = none → LeavingFinished m := by
  refine Reach.invariant (I := fun m : Machine => m.fault = none → LeavingFinished m) h
    (fun _ id th hleave => absurd hleave (AtCode.not_leaving trivial)) ?_
  intro m a m' hreach _ _ hs hf
  obtain ⟨hm, hr⟩ := Rule.of_step hs
  exact .step (coroutines_of_reached hreach hm) (shaped_of_reached hreach hm) hr hf

lemma notMem_eraseIdx_of_count {l : List TaskID} {i : Nat} (hi : l[i]? = some id)
    (hcount : l.count id ≤ 1) : id ∉ l.eraseIdx i := by
  obtain ⟨hlt, hid⟩ := List.getElem?_eq_some_iff.mp hi
  rw [← List.take_append_drop i l, List.drop_eq_getElem_cons hlt, hid, List.count_append,
    List.count_cons_self] at hcount
  rw [List.eraseIdx_eq_take_drop_succ, List.mem_append, not_or]
  exact ⟨List.count_eq_zero.mp (by omega), List.count_eq_zero.mp (by omega)⟩

lemma Rule.running_of (hr : Rule m a m') (hcount : m.sched.Counted) (hf : m'.fault = none)
    (hrun : id ∈ m.sched.taskNameMapRunning) (hpend : id ∉ m.sched.pendingRemovalTasks)
    (hflag : id ∉ m.sched.userRemovalTasksSet) : id ∈ m'.sched.taskNameMapRunning := by
  cases hr with
  | fault hf' | removeFault _ hf' | resumeFault _ _ _ _ _ _ _ _ _ hf' => simp [hf] at hf'
  | skip id₀ rest hs hnr hset =>
    simp only [Scheduler.unregister, clearUserRemoval_running, Finmap.mem_erase]
    exact ⟨fun heq => hflag (heq ▸ hset), hcount.mem_drain.mpr ⟨hrun, hpend⟩⟩
  | resume => exact hcount.mem_drain.mpr ⟨hrun, hpend⟩
  | yieldedLoop | yieldedReturn => simpa using hrun
  | append user id₀ name body startNow s hs hch =>
    exact mem_installTask_running.mpr (.inr (hch.running.1.symm ▸ hrun))
  | restart _ id₀ name body s hs hcl =>
    exact Finmap.mem_insert.mpr (.inr (hcl.running.symm ▸ hrun))
  | newEventHdl name user e s hs hch => exact hch.running.1.symm ▸ hrun
  | remove | removeWaiting => simpa using hrun
  | _ => exact hrun

lemma Rule.pending (hr : Rule m a m') (hcount : m.sched.Counted) (hf : m'.fault = none)
    (h : id ∈ m'.sched.pendingRemovalTasks) :
    id ∈ m.sched.pendingRemovalTasks ∨ a = .yielded ∧ ∃ th, Leaving m id th := by
  cases hr with
  | fault hf' | removeFault _ hf' | resumeFault _ _ _ _ _ _ _ _ _ hf' => simp [hf] at hf'
  | skip id₀ =>
    simp only [Scheduler.unregister, clearUserRemoval_pending, hcount.drain_pending] at h
    cases h
  | resume =>
    simp only [hcount.drain_pending] at h
    cases h
  | yieldedLoop id₀ th oldCurr y rest hs | yieldedReturn id₀ th oldCurr y rest hs =>
    dsimp only at h
    rw [settle_pending] at h
    split_ifs at h with hy
    · rcases List.mem_append.mp h with h | h
      · exact .inl h
      · obtain rfl := List.mem_singleton.mp h
        exact .inr ⟨rfl, th, oldCurr, y, rest, hs, hy⟩
    · exact .inl h
  | append user id₀ name body startNow s hs hch =>
    rw [installTask_pending] at h
    exact .inl (hch.running.2.2 ▸ h)
  | restart _ id₀ name body s hs hcl =>
    left
    cases hcl with
    | notRunning => exact h
    | flagged | tried => simpa [Machine.call, Machine.coroCreate] using h
    | pending => exact List.eraseIdx_subset h
  | newEventHdl name user e s hs hch => exact .inl (hch.running.2.2 ▸ h)
  | remove | removeWaiting => exact .inl (by simpa using h)
  | _ => exact .inl h

lemma Rule.flags (hr : Rule m a m') (hf : m'.fault = none)
    (h : id ∈ m'.sched.userRemovalTasksSet) :
    id ∈ m.sched.userRemovalTasksSet ∨ m'.removed id := by
  cases hr with
  | fault hf' | removeFault _ hf' | resumeFault _ _ _ _ _ _ _ _ _ hf' => simp [hf] at hf'
  | skip id₀ =>
    simp only [Scheduler.unregister, clearUserRemoval_flags, drainPendingRemoval_userRemovalTasksSet]
      at h
    exact .inl (Finset.mem_of_mem_erase h)
  | resume => exact .inl (by simpa using h)
  | yieldedLoop | yieldedReturn => exact .inl (by simpa using h)
  | append user id₀ name body startNow s hs hch =>
    rw [installTask_flags] at h
    exact .inl (hch.running.2.1 ▸ Finset.mem_of_mem_erase h)
  | restart _ id₀ name body s hs hcl =>
    left
    cases hcl with
    | notRunning | pending => exact h
    | flagged | tried =>
      simp only [Machine.call, Machine.coroCreate, clearUserRemoval_flags] at h
      exact Finset.mem_of_mem_erase h
  | newEventHdl name user e s hs hch => exact .inl (hch.running.2.1 ▸ h)
  | remove id₀ | removeWaiting id₀ =>
    refine (mem_flagUserRemoval_flags.mp h).imp_right ?_
    rintro ⟨rfl, hrun⟩
    simp [Machine.removed, removedSince, Scheduler.checkTaskExists, hrun]
  | _ => exact .inl h

lemma Rule.coroutine_isSome (hr : Rule m a m') (hf : m'.fault = none)
    (h : (m.sched.taskCoroutineMap id).isSome) : (m'.sched.taskCoroutineMap id).isSome := by
  by_cases hins : Installs m m' id
  · rcases hr.installs hf hins with ⟨user, name, body, startNow, s, -, -, rfl⟩ | ⟨name, body, s, -, rfl⟩
    · rw [startTask_threads.2]
      simp [Machine.installTask, Machine.coroCreate]
    · simp [Machine.call, Machine.coroCreate]
  · rw [hr.coroutine_eq hf hins]
    exact h

lemma Coherent.of_installs (h : Coherent m) (hreg : m.sched.Registered)
    (hok : m.restartsClean a = true) (hr : Rule m a m') (hf : m'.fault = none)
    (hins : Installs m m' id) : id ∈ m'.sched.taskNameMapRunning ∧
      id ∉ m'.sched.pendingRemovalTasks ∧ id ∉ m'.sched.userRemovalTasksSet := by
  rcases hr.installs hf hins with ⟨user, name, body, startNow, s, hch, rfl, rfl⟩ | ⟨name, body, s, hcl, rfl⟩
  · refine ⟨mem_installTask_running.mpr (.inl rfl), ?_, ?_⟩
    · rw [installTask_pending]
      cases hch with
      | given => exact of_decide_eq_true hok
      | fresh _ _ halloc =>
        obtain ⟨hnew, -, -, rfl⟩ := Scheduler.allocTaskId_eq_some halloc
        exact fun hmem => (hreg.coroutine id).mpr (h.known id hmem) hnew
    · rw [installTask_flags]
      exact Finset.notMem_erase _ _
  · refine ⟨Finmap.mem_insert.mpr (.inl rfl), ?_⟩
    show id ∉ s.pendingRemovalTasks ∧ id ∉ s.userRemovalTasksSet
    cases hcl with
    | notRunning hrun => simpa [Machine.restartsClean, hrun] using hok
    | flagged hrun hflag =>
      simp only [Machine.restartsClean, hrun, hflag, not_true_eq_false, if_false, if_true,
        decide_eq_true_eq] at hok
      simp [hok]
    | pending hrun hflag i hi =>
      simp only [Machine.restartsClean, hrun, hflag, not_true_eq_false, if_false,
        decide_eq_true_eq] at hok
      obtain ⟨hlt, hid, -⟩ := List.findIdx?_eq_some_iff_getElem.mp hi
      refine ⟨notMem_eraseIdx_of_count ?_ hok, hflag⟩
      rw [List.getElem?_eq_getElem hlt]
      simpa using hid
    | tried =>
      have hpend : id ∉ m.sched.pendingRemovalTasks := of_decide_eq_true hok
      simp [hpend]

lemma Coherent.step (h : Coherent m) (hreg : m.sched.Registered) (hcount : m.sched.Counted)
    (hc : Coroutines m) (hleft : LeavingFinished m) (hok : m.restartsClean a = true)
    (hr : Rule m a m') (hf : m'.fault = none) : Coherent m' := by
  -- a coroutine that finishes is the current one, which then is not live
  have hcurrent : a = .yielded → ∀ id th, Leaving m id th →
      m.sched.taskCoroutineMap id = some th := by
    rintro rfl id th ⟨oldCurr, y, rest, hs, hy⟩
    simpa [Machine.restartsClean, hs, hy] using hok
  refine ⟨fun id hlive => ?_, fun id hmem => ?_⟩
  · by_cases hins : Installs m m' id
    · exact h.of_installs hreg hok hr hf hins
    · have hold := hr.live hc hf hins hlive
      obtain ⟨hrun, hpend, hflag⟩ := h.live id hold
      refine ⟨hr.running_of hcount hf hrun hpend hflag, fun hmem => ?_, fun hmem => ?_⟩
      · rcases hr.pending hcount hf hmem with hmem | ⟨ha, th, hleave⟩
        · exact hpend hmem
        · obtain ⟨t, ht, hfin⟩ := hleft id th hleave
          exact hold.2.1 ⟨th, t, hcurrent ha id th hleave, ht, hfin⟩
      · exact (hr.flags hf hmem).elim hflag hlive.2.2
  · refine hr.coroutine_isSome hf ?_
    rcases hr.pending hcount hf hmem with hmem | ⟨ha, th, hleave⟩
    · exact h.known id hmem
    · simp [hcurrent ha id th hleave]

/-- In a run that restarts tasks cleanly, an id whose current coroutine has neither finished nor
been removed is in the running map, and neither the next drain nor a removal flag can take it out
or suppress it. -/
theorem coherent_of_restartsClean
    (h : Machine.Reached mode (fun m a => m.restartsClean a = true) m) (hf : m.fault = none)
    (hlive : m.Live id) : id ∈ m.sched.taskNameMapRunning ∧
      id ∉ m.sched.pendingRemovalTasks ∧ id ∉ m.sched.userRemovalTasksSet := by
  have hcoh : m.fault = none → Coherent m := by
    refine Reach.invariant (I := fun m : Machine => m.fault = none → Coherent m) h (fun _ => ?_) ?_
    · refine ⟨fun id hlive => ?_, by simp [Machine.init, Scheduler.init]⟩
      exact absurd hlive.1 (by simp [Machine.init, Scheduler.init])
    · intro m a m' hm ih hok hs hf'
      obtain ⟨hf, hr⟩ := Rule.of_step hs
      exact (ih hf).step (registered_of_reached hm hf) (counted_of_reached hm hf)
        (coroutines_of_reached hm hf) (leavingFinished_of_reached hm hf) hok hr hf'
  exact (hcoh hf).live id hlive

/-- `B` starts `A` with the id 5. `A` returns at once; `B` removes it and appends it again, before
anything has drained the pending list: the call that starts the new `A` takes its id out of the
running map. -/
def appendBeforeDrain : List Act :=
  [.appendTask none "B" 0 true, .enter,
   .appendTask (some 5) "A" 1 true, .enter, .yield .returned, .yielded,
   .removeTask 5, .appendTask (some 5) "A" 1 true, .enter, .awaitCallback false, .yielded]

theorem not_coherent :
    ¬ ∀ m, Machine.Reached .normal Unguarded m → m.fault = none → ∀ id, m.Live id →
      id ∈ m.sched.taskNameMapRunning := by
  intro h
  have hrun : (run Machine.step (Machine.init .normal) appendBeforeDrain).map (fun m =>
      (m.fault, m.sched.taskCoroutineMap 5, (m.threads 2).map Thread.finished,
        removedSince 5 m.log, decide (5 ∈ m.sched.taskNameMapRunning))) =
      some (none, some 2, some false, false, false) := by decide +kernel
  obtain ⟨m, hm, heq⟩ := Option.map_eq_some_iff.mp hrun
  simp only [Prod.mk.injEq, decide_eq_false_iff_not] at heq
  obtain ⟨hf, hth, hfin, hrem, hnot⟩ := heq
  refine hnot (h m (reach_of_run hm) hf 5 ⟨by simp [hth], ?_, by simp [Machine.removed, hrem]⟩)
  rintro ⟨th, t, hth', ht, hdone⟩
  rw [hth] at hth'
  cases hth'
  simp [ht, hdone] at hfin

/-- `A` returns and is woken up from the pending list. -/
def wakeupAfterReturn : List Act :=
  [.appendTask (some 5) "A" 0 true, .enter, .yield .returned, .yielded,
   .wakeupTask 5, .enter, .awaitCallback false, .yielded]

theorem coherent_of_wakeupAfterReturn :
    ∃ m, runChecked Machine.step (fun m a => m.restartsClean a = true) (Machine.init .normal)
        wakeupAfterReturn = some m ∧ m.Live 5 ∧ 5 ∈ m.sched.taskNameMapRunning ∧
      5 ∉ m.sched.pendingRemovalTasks ∧ 5 ∉ m.sched.userRemovalTasksSet := by
  have hrun : (runChecked Machine.step (fun m a => m.restartsClean a = true) (Machine.init .normal)
      wakeupAfterReturn).map (fun m => (m.fault, m.sched.taskCoroutineMap 5,
        (m.threads 1).map Thread.finished, removedSince 5 m.log)) =
      some (none, some 1, some false, false) := by decide +kernel
  obtain ⟨m, hm, heq⟩ := Option.map_eq_some_iff.mp hrun
  simp only [Prod.mk.injEq] at heq
  obtain ⟨hf, hth, hfin, hrem⟩ := heq
  have hlive : m.Live 5 := by
    refine ⟨by simp [hth], ?_, by simp [Machine.removed, hrem]⟩
    rintro ⟨th, t, hth', ht, hdone⟩
    rw [hth] at hth'
    cases hth'
    simp [ht, hdone] at hfin
  exact ⟨m, hm, hlive, coherent_of_restartsClean (reach_of_runChecked hm) hf hlive⟩

/-! ### What is left of a stopped task -/

/-- `id` was registered, and its current coroutine has finished or been removed. -/
def Machine.Stopped (m : Machine) (id : TaskID) : Prop :=
  m.sched.taskNameMapArchived id ≠ none ∧ (m.finished id ∨ m.removed id)

/-- A removed id has its flag or is out of the running map. -/
def RemovedFlagged (m : Machine) : Prop :=
  ∀ id, m.removed id → id ∈ m.sched.userRemovalTasksSet ∨ id ∉ m.sched.taskNameMapRunning

lemma RemovedFlagged.step (h : RemovedFlagged m) (hcount : m.sched.Counted) (hr : Rule m a m')
    (hf : m'.fault = none) : RemovedFlagged m' := by
  intro id hid
  rcases hr.removed hf hid with ⟨hold, hcreate⟩ | hflag
  swap
  · exact .inl hflag
  rcases h id hold with hflag | hrun
  · rcases hr.mem_flags hf hflag with hflag' | ⟨th, hlog⟩ | ⟨rest, hs, rfl, rfl⟩
    · exact .inl hflag'
    · exact absurd hlog (hcreate th)
    · exact .inr (by simp [Scheduler.unregister])
  · refine .inr fun hrun' => ?_
    rcases hr.mem_running hcount hf hrun' with hrun' | ⟨th, hlog⟩
    · exact hrun hrun'
    · exact hcreate th hlog

lemma removedFlagged_of_reached (h : Machine.Reached mode ok m) :
    m.fault = none → RemovedFlagged m := by
  refine Reach.invariant (I := fun m : Machine => m.fault = none → RemovedFlagged m) h
    (fun _ id hid => ?_) ?_
  · simp [Machine.removed, Machine.init, removedSince] at hid
  · intro m a m' hreach ih _ hs hf
    obtain ⟨hm, hr⟩ := Rule.of_step hs
    exact (ih hm).step (counted_of_reached hreach hm) hr hf

/-- A finished id that is in the running map waits for the drain. -/
def FinishedPending (m : Machine) : Prop :=
  ∀ id th t, m.sched.taskCoroutineMap id = some th → m.threads th = some t → t.finished = true →
    Leaving m id th ∨ (id ∈ m.sched.taskNameMapRunning → id ∈ m.sched.pendingRemovalTasks)

lemma FinishedPending.step (h : FinishedPending m) (hc : Coroutines m) (hcount : m.sched.Counted)
    (hstep : m.step a = some m') (hf : m'.fault = none) : FinishedPending m' := by
  intro id th t hth ht hfin
  have hr := (Rule.of_step hstep).2
  rcases hr.finished hc hf hth ht hfin with ⟨hth', ⟨t', ht', hfin'⟩, hcreate⟩ | ⟨o, y, rest, hs, hy⟩
  · right
    rcases h id th t' hth' ht' hfin' with ⟨oldCurr, y, rest, hs, hy⟩ | hpend
    · obtain ⟨rfl, rfl⟩ := step_of_resumed hs hstep
      have hpending : id ∈ (m.sched.settle m.mode id oldCurr y).pendingRemovalTasks := by
        rw [settle_pending, if_pos hy]
        simp
      have hunknown : y ≠ .unknown := by rintro rfl; cases hy
      unfold Machine.taskYielded
      rw [if_neg hunknown]
      dsimp only
      split_ifs <;> exact fun _ => hpending
    · exact hr.running_pending hcount hf hpend hcreate
  · exact .inl ⟨o, y, rest, hs, hy⟩

lemma finishedPending_of_reached (h : Machine.Reached mode ok m) :
    m.fault = none → FinishedPending m := by
  refine Reach.invariant (I := fun m : Machine => m.fault = none → FinishedPending m) h
    (fun _ id th t hth => ?_) ?_
  · simp [Machine.init, Scheduler.init] at hth
  · intro m a m' hreach ih _ hs hf
    have hm := (Rule.of_step hs).1
    exact (ih hm).step (coroutines_of_reached hreach hm) (counted_of_reached hreach hm) hs hf

lemma pending_of_stopped (h : Machine.Reached mode ok m) (hf : m.fault = none)
    (hcode : AtCode m.stack) (hstop : m.Stopped id) (hrun : id ∈ m.sched.taskNameMapRunning)
    (hflag : id ∉ m.sched.userRemovalTasksSet) : id ∈ m.sched.pendingRemovalTasks := by
  rcases hstop.2 with ⟨th, t, hth, ht, hfin⟩ | hrem
  · rcases finishedPending_of_reached h hf id th t hth ht hfin with hleave | hpend
    · exact absurd hleave hcode.not_leaving
    · exact hpend hrun
  · rcases removedFlagged_of_reached h hf id hrem with hflag' | hrun'
    · exact absurd hflag' hflag
    · exact absurd hrun hrun'

/-! ### Restarting a stopped task -/

/-- `a` resumes a fresh coroutine of `body` for `id` before it returns. -/
def Restarts (m : Machine) (a : Act) (id : TaskID) (body : Option BodyID) : Prop :=
  ∃ m₁ m₂ oldCurr b, m.step a = some m₁ ∧ m₁.step .enter = some m₂ ∧ m₂.fault = none ∧
    m₂.stack = .body id m.nextThread oldCurr :: m.stack ∧
    m₂.sched.taskCoroutineMap id = some m.nextThread ∧
    body = some b ∧ m₂.threads m.nextThread = some ⟨b, .active, false⟩

lemma coroResume_of_suspended {t : Thread} (hth : m.sched.taskCoroutineMap id = some th)
    (ht : m.threads th = some t) (hsus : t.status = .suspended) :
    m.coroResume id = { m with
      threads := Function.update m.threads th (some { t with status := .active })
      sched := { m.sched with currTaskId := id }
      stack := .body id th m.sched.currTaskId :: m.stack
      log := .resume id th t.finished :: m.log } := by
  simp [Machine.coroResume, hth, ht, hsus]

/-- `schedule_task` of an id that is not flagged resumes its coroutine, if that is suspended. -/
lemma step_enter_of_suspended {rest : List Frame} {t : Thread} (hf : m.fault = none)
    (hs : m.stack = .call id :: rest) (hflag : id ∉ m.sched.userRemovalTasksSet)
    (hreg : m.sched.Registered) (hth : m.sched.taskCoroutineMap id = some th)
    (ht : m.threads th = some t) (hsus : t.status = .suspended) :
    ∃ m' oldCurr, m.step .enter = some m' ∧ m'.fault = none ∧
      m'.stack = .body id th oldCurr :: rest ∧ m'.sched.taskCoroutineMap id = some th ∧
      m'.threads th = some { t with status := .active } := by
  have hk := keeps_drainPendingRemoval m.sched
  have harch : m.sched.drainPendingRemoval.taskNameMapArchived id ≠ none := by
    rw [hk.taskNameMapArchived, hreg.coroutine, hth]
    rfl
  obtain ⟨cnt, hcnt⟩ := Option.isSome_iff_exists.mp (hreg.drain.count id harch)
  have hth' : m.sched.drainPendingRemoval.taskCoroutineMap id = some th := by
    rw [hk.taskCoroutineMap, hth]
  have hstep : m.step .enter = some (m.scheduleTask id rest) := by simp [Machine.step, hf, hs]
  have hsched : m.scheduleTask id rest = Machine.coroResume { m with
      sched := { m.sched.drainPendingRemoval with
        taskExecutionCountMap :=
          Function.update m.sched.drainPendingRemoval.taskExecutionCountMap id (some (cnt + 1)) }
      stack := rest } id := by
    simp [Machine.scheduleTask, hflag, hcnt]
  refine ⟨_, _, hstep.trans (congrArg some (hsched.trans (coroResume_of_suspended hth' ht hsus))),
    hf, rfl, hth', ?_⟩
  simp

lemma step_enter_of_flagged {rest : List Frame} (hs : m.stack = .call id :: rest)
    (hcount : m.sched.Counted) (hflag : id ∈ m.sched.userRemovalTasksSet)
    (h : m.step .enter = some m') : m'.stack = rest := by
  unfold Machine.step at h
  split_ifs at h
  rw [hs] at h
  simp only [Machine.scheduleTask, drainPendingRemoval_userRemovalTasksSet,
    drainPendingRemoval_nrUserRemovalTasks, hflag, hcount.nrUser_pos hflag, and_self, if_true,
    Option.some.injEq] at h
  rw [← h]

/-- What `wakeup_task` and `try_wakeup_task` do once they have cleared the marks of `id`. -/
def Machine.restarted (m : Machine) (s : Scheduler) (id : TaskID) (name : String) (b : BodyID) :
    Machine :=
  (Machine.coroCreate { m with
    sched := { s with
      taskNameMapRunning := s.taskNameMapRunning.insert id name
      taskFiredStatusMap := Function.update s.taskFiredStatusMap id true } } id b).call id

lemma step_of_atCode (hf : m.fault = none) (hcode : AtCode m.stack) (id : TaskID) :
    m.step (.wakeupTask id) = some (m.wakeupTask id) ∧
      m.step (.tryWakeupTask id) = some (m.tryWakeupTask id) ∧
      (∀ user name b startNow, m.step (.appendTask user name b startNow) =
        some (m.appendTask user name b startNow)) ∧
      m.step .enter = none := by
  simp only [Machine.step, hf, Option.isSome_none, Bool.false_eq_true, if_false]
  cases hs : m.stack with
  | nil => exact ⟨rfl, rfl, fun _ _ _ _ => rfl, rfl⟩
  | cons f rest =>
    rw [hs] at hcode
    cases f with
    | body => exact ⟨rfl, rfl, fun _ _ _ _ => rfl, rfl⟩
    | call | resumed | wakeup | pass => exact hcode.elim

/-- A fresh coroutine that is passed to `schedule_task` with no flag left is resumed. -/
lemma Restarts.of_call {m₁ : Machine} {b : BodyID} (hm : m.sched.Registered)
    (hstep : m.step a = some m₁) (hf : m₁.fault = none) (hs : m₁.stack = .call id :: m.stack)
    (hflag : id ∉ m₁.sched.userRemovalTasksSet)
    (hth : m₁.sched.taskCoroutineMap id = some m.nextThread)
    (ht : m₁.threads m.nextThread = some ⟨b, .suspended, false⟩) : Restarts m a id (some b) := by
  have hreg := registered_step hm (Rule.of_step hstep).2 hf
  obtain ⟨m₂, oldCurr, henter, hf', hs', hth', ht'⟩ :=
    step_enter_of_suspended hf hs hflag hreg hth ht rfl
  exact ⟨m₁, m₂, oldCurr, b, hstep, henter, hf', hs', hth', rfl, ht'⟩

lemma Restarts.of_restarted {s : Scheduler} {name : String} {b : BodyID} (hm : m.sched.Registered)
    (hf : m.fault = none) (hstep : m.step a = some (m.restarted s id name b))
    (hflag : id ∉ s.userRemovalTasksSet) : Restarts m a id (some b) :=
  .of_call hm hstep hf rfl hflag (by simp [Machine.restarted, Machine.call, Machine.coroCreate])
    (by simp [Machine.restarted, Machine.call, Machine.coroCreate])

section Restarted

variable {name : String} {b : BodyID} (hname : m.sched.taskNameMapArchived id = some name)
  (hb : m.sched.taskBodyMap id = some b)

include hname hb

lemma wakeupTask_notRunning (hrun : id ∉ m.sched.taskNameMapRunning) :
    m.wakeupTask id = m.restarted m.sched id name b := by
  simp [Machine.wakeupTask, hname, Scheduler.checkTaskExists, hrun, Machine.restartTask, hb,
    Machine.restarted]

lemma wakeupTask_flagged (hrun : id ∈ m.sched.taskNameMapRunning)
    (hflag : id ∈ m.sched.userRemovalTasksSet) :
    m.wakeupTask id = m.restarted (m.sched.clearUserRemoval id) id name b := by
  have hb' := (keeps_clearUserRemoval m.sched id).taskBodyMap
  simp [Machine.wakeupTask, hname, Scheduler.checkTaskExists, hrun, hflag, Machine.restartTask, hb',
    hb, Machine.restarted]

lemma wakeupTask_pending (hrun : id ∈ m.sched.taskNameMapRunning)
    (hflag : id ∉ m.sched.userRemovalTasksSet) (hpend : id ∈ m.sched.pendingRemovalTasks) :
    ∃ s, s.userRemovalTasksSet = m.sched.userRemovalTasksSet ∧
      m.wakeupTask id = m.restarted s id name b := by
  obtain ⟨i, hi⟩ : ∃ i, m.sched.pendingRemovalTasks.findIdx? (fun r => r = id) = some i :=
    Option.isSome_iff_exists.mp (by simpa [List.findIdx?_isSome] using hpend)
  refine ⟨{ m.sched with
    pendingRemovalTasks := m.sched.pendingRemovalTasks.eraseIdx i
    nrPendingRemovalTasks := m.sched.nrPendingRemovalTasks - 1 }, rfl, ?_⟩
  simp [Machine.wakeupTask, hname, Scheduler.checkTaskExists, hrun, hflag, hi, Machine.restartTask,
    hb, Machine.restarted]

lemma tryWakeupTask_restarted
    (h : id ∈ m.sched.taskNameMapRunning → id ∈ m.sched.userRemovalTasksSet) :
    m.tryWakeupTask id = m.restarted (m.sched.clearUserRemoval id) id name b := by
  have hb' := (keeps_clearUserRemoval m.sched id).taskBodyMap
  simp only [Machine.tryWakeupTask, Scheduler.checkTaskExists, Bool.and_eq_true, decide_eq_true_eq]
  rw [if_neg fun hand => hand.2 (h hand.1)]
  simp [hname, Machine.restartTask, hb', hb, Machine.restarted]

end Restarted

section Conditions

variable (h : Machine.Reached .normal ok m) (hf : m.fault = none) (hcode : AtCode m.stack)
include h hf hcode

/-- `wakeup_task` restarts a stopped task unless its flag has outlived its entry in the running
map. -/
theorem wakeupTask_restarts_iff (hstop : m.Stopped id) :
    Restarts m (.wakeupTask id) id (m.sched.taskBodyMap id) ↔
      (id ∈ m.sched.userRemovalTasksSet → id ∈ m.sched.taskNameMapRunning) := by
  have hreg := registered_of_reached h hf
  have hcount := counted_of_reached h hf
  obtain ⟨name, hname⟩ := Option.ne_none_iff_exists'.mp hstop.1
  obtain ⟨b, hb⟩ := Option.isSome_iff_exists.mp (hreg.body id hstop.1)
  have hwakeup := (step_of_atCode hf hcode id).1
  rw [hb]
  constructor
  · rintro ⟨m₁, m₂, oldCurr, _, hstep, hstep', -, hs, -⟩ hflag
    by_contra hrun
    rw [hwakeup, wakeupTask_notRunning hname hb hrun] at hstep
    cases hstep
    have hs' := step_enter_of_flagged (m := m.restarted m.sched id name b) rfl
      ⟨hcount.pending, hcount.user⟩ hflag hstep'
    rw [hs'] at hs
    exact List.cons_ne_self _ _ hs.symm
  · intro himp
    by_cases hrun : id ∈ m.sched.taskNameMapRunning
    · by_cases hflag : id ∈ m.sched.userRemovalTasksSet
      · rw [wakeupTask_flagged hname hb hrun hflag] at hwakeup
        exact .of_restarted hreg hf hwakeup (by simp)
      · have hpend := pending_of_stopped h hf hcode hstop hrun hflag
        obtain ⟨s, hs, hwakeup'⟩ := wakeupTask_pending hname hb hrun hflag hpend
        rw [hwakeup'] at hwakeup
        exact .of_restarted hreg hf hwakeup (hs ▸ hflag)
    · rw [wakeupTask_notRunning hname hb hrun] at hwakeup
      exact .of_restarted hreg hf hwakeup fun hflag => hrun (himp hflag)

/-- `try_wakeup_task` restarts a registered id unless it is in the running map without a flag, as
a finished task is until the next drain. -/
theorem tryWakeupTask_restarts_iff (harch : m.sched.taskNameMapArchived id ≠ none) :
    Restarts m (.tryWakeupTask id) id (m.sched.taskBodyMap id) ↔
      (id ∈ m.sched.taskNameMapRunning → id ∈ m.sched.userRemovalTasksSet) := by
  have hreg := registered_of_reached h hf
  obtain ⟨name, hname⟩ := Option.ne_none_iff_exists'.mp harch
  obtain ⟨b, hb⟩ := Option.isSome_iff_exists.mp (hreg.body id harch)
  obtain ⟨-, htry, -, henter⟩ := step_of_atCode hf hcode id
  rw [hb]
  constructor
  · rintro ⟨m₁, m₂, _, _, hstep, hstep', -⟩ hrun
    by_contra hflag
    have hnoop : m.tryWakeupTask id = m := by
      simp [Machine.tryWakeupTask, Scheduler.checkTaskExists, hrun, hflag]
    rw [htry, hnoop] at hstep
    cases hstep
    rw [henter] at hstep'
    cases hstep'
  · intro himp
    rw [tryWakeupTask_restarted hname hb himp] at htry
    exact .of_restarted hreg hf htry (by simp)

/-- `append_task` with the id of a registered task, under the condition of `try_wakeup_task`. -/
theorem appendTask_restarts_iff (hm : m.mode = .normal)
    (harch : m.sched.taskNameMapArchived id ≠ none) (name : String) (b : BodyID) :
    Restarts m (.appendTask (some id) name b true) id (some b) ↔
      (id ∈ m.sched.taskNameMapRunning → id ∈ m.sched.userRemovalTasksSet) := by
  have hreg := registered_of_reached h hf
  have hv := hreg.valid id harch
  have happend := (step_of_atCode hf hcode id).2.2.1 (some id) name b true
  constructor
  · rintro ⟨m₁, m₂, _, _, hstep, hstep', -⟩ hrun
    by_contra hflag
    have hfail : ∃ f, m.appendTask (some id) name b true = m.fail f := by
      simp only [Machine.appendTask, hv, Scheduler.checkTaskExists, hrun, hflag]
      exact ⟨_, rfl⟩
    obtain ⟨f, hfail⟩ := hfail
    rw [happend, hfail] at hstep
    cases hstep
    simp [Machine.step, Machine.fail] at hstep'
  · intro himp
    have hinst : m.appendTask (some id) name b true =
        (m.installTask id name b).startTask id true := by
      simp only [Machine.appendTask, hv, Scheduler.checkTaskExists, Bool.not_true, Bool.false_eq_true,
        if_false, Bool.and_eq_true, decide_eq_true_eq]
      rw [if_neg fun hand => hand.2 (himp hand.1)]
    have hstart : (m.installTask id name b).startTask id true = Machine.call
        { m.installTask id name b with
          sched := { (m.installTask id name b).sched with
            taskFiredStatusMap := Function.update
              (m.installTask id name b).sched.taskFiredStatusMap id true } } id := by
      unfold Machine.startTask
      rw [if_pos]
      simp [Machine.installTask, Machine.coroCreate, hm]
    rw [hinst, hstart] at happend
    refine .of_call hreg happend hf rfl ?_ ?_ ?_
    · simp [Machine.installTask, Machine.coroCreate, Machine.call]
    · simp [Machine.installTask, Machine.coroCreate, Machine.call]
    · simp [Machine.installTask, Machine.coroCreate, Machine.call]

end Conditions

/-- A stopped id can be restarted by `wakeup_task`, by `try_wakeup_task` and by `append_task`, if
and only if it is in the running map exactly if it is flagged for removal. -/
theorem restarts_iff (h : Machine.Reached .normal Unguarded m) (hf : m.fault = none)
    (hcode : AtCode m.stack) (hstop : m.Stopped id) :
    (Restarts m (.wakeupTask id) id (m.sched.taskBodyMap id) ∧
      Restarts m (.tryWakeupTask id) id (m.sched.taskBodyMap id) ∧
      ∀ name b, Restarts m (.appendTask (some id) name b true) id (some b)) ↔
    (id ∈ m.sched.taskNameMapRunning ↔ id ∈ m.sched.userRemovalTasksSet) := by
  have hm : m.mode = .normal := mode_of_reached h hf
  rw [wakeupTask_restarts_iff h hf hcode hstop, tryWakeupTask_restarts_iff h hf hcode hstop.1]
  simp only [appendTask_restarts_iff h hf hcode hm hstop.1]
  exact ⟨fun ⟨hw, ht, _⟩ => ⟨ht, hw⟩, fun hiff => ⟨hiff.mpr, hiff.mp, fun _ _ => hiff.mp⟩⟩

/-- `A` has returned and nothing has drained the pending list: `try_wakeup_task` takes it for
running. -/
def returned : List Act :=
  [.appendTask (some 5) "A" 0 true, .enter, .yield .returned, .yielded]

theorem not_restarts :
    ¬ ∀ m id, Machine.Reached .normal Unguarded m → m.fault = none → AtCode m.stack →
      m.Stopped id → Restarts m (.wakeupTask id) id (m.sched.taskBodyMap id) ∧
        Restarts m (.tryWakeupTask id) id (m.sched.taskBodyMap id) ∧
        ∀ name b, Restarts m (.appendTask (some id) name b true) id (some b) := by
  intro h
  have hrun : (run Machine.step (Machine.init .normal) returned).map (fun m =>
      decide (m.fault = none ∧ m.stack = [] ∧ m.sched.taskNameMapArchived 5 = some "A" ∧
        m.sched.taskCoroutineMap 5 = some 0 ∧ (m.threads 0).map Thread.finished = some true ∧
        5 ∈ m.sched.taskNameMapRunning ∧ 5 ∉ m.sched.userRemovalTasksSet)) = some true := by
    decide +kernel
  obtain ⟨m, hm, heq⟩ := Option.map_eq_some_iff.mp hrun
  obtain ⟨hf, hs, harch, hth, hfin, hrunning, hflag⟩ := of_decide_eq_true heq
  obtain ⟨t, ht, hdone⟩ := Option.map_eq_some_iff.mp hfin
  have hcode : AtCode m.stack := by rw [hs]; trivial
  have harch' : m.sched.taskNameMapArchived 5 ≠ none := by simp [harch]
  have hrestart := (h m 5 (reach_of_run hm) hf hcode ⟨harch', .inl ⟨0, t, hth, ht, hdone⟩⟩).2.1
  exact hflag ((tryWakeupTask_restarts_iff (reach_of_run hm) hf hcode harch').mp hrestart hrunning)

/-- `A` has returned and the call that starts `B` has drained it. -/
def returnedAndDrained : List Act :=
  returned ++ [.appendTask none "B" 1 true, .enter, .awaitCallback false, .yielded]

theorem restarts_of_returnedAndDrained :
    ∃ m, run Machine.step (Machine.init .normal) returnedAndDrained = some m ∧
      Restarts m (.wakeupTask 5) 5 (m.sched.taskBodyMap 5) ∧
      Restarts m (.tryWakeupTask 5) 5 (m.sched.taskBodyMap 5) ∧
      ∀ name b, Restarts m (.appendTask (some 5) name b true) 5 (some b) := by
  have hrun : (run Machine.step (Machine.init .normal) returnedAndDrained).map (fun m =>
      decide (m.fault = none ∧ m.stack = [] ∧ m.sched.taskNameMapArchived 5 = some "A" ∧
        m.sched.taskCoroutineMap 5 = some 0 ∧ (m.threads 0).map Thread.finished = some true ∧
        5 ∉ m.sched.taskNameMapRunning ∧ 5 ∉ m.sched.userRemovalTasksSet)) = some true := by
    decide +kernel
  obtain ⟨m, hm, heq⟩ := Option.map_eq_some_iff.mp hrun
  obtain ⟨hf, hs, harch, hth, hfin, hrunning, hflag⟩ := of_decide_eq_true heq
  obtain ⟨t, ht, hdone⟩ := Option.map_eq_some_iff.mp hfin
  exact ⟨m, hm, (restarts_iff (reach_of_run hm) hf (by rw [hs]; trivial)
    ⟨by simp [harch], .inl ⟨0, t, hth, ht, hdone⟩⟩).mpr (iff_of_false hrunning hflag)⟩

end Verilua
