import Verilua.Scheduler.Tasks

/-!
# Removal of tasks

`remove_task` only sets a flag, which the next `schedule_task` of the id consumes. Between the two
the task can be registered in several places at once, and only one of them meets the flag. A
removed task stays stopped in every run in which the flag is consumed by the last of them.
-/

namespace Verilua

open TransitionSystem

variable {m m' : Machine} {a : Act} {mode : Mode} {ok : Machine → Act → Prop} {id : TaskID}

/-! ### Removed ids -/

/-- `id` was removed while it was running, and no coroutine was installed for it since. -/
def removedSince (id : TaskID) : List Ev → Bool
  | [] => false
  | .create id' _ :: log => decide (id' ≠ id) && removedSince id log
  | .remove id' running :: log => decide (id' = id) && running || removedSince id log
  | _ :: log => removedSince id log

/-- No coroutine is resumed for an id that has been removed and not been restarted. -/
def removalRespected : List Ev → Bool
  | [] => true
  | .resume id _ _ :: log => !removedSince id log && removalRespected log
  | _ :: log => removalRespected log

def Machine.removed (m : Machine) (id : TaskID) : Prop := removedSince id m.log = true

lemma removedSince_finish {th : ThreadID} {id' : TaskID} {b : Bool} {log : List Ev} :
    removedSince id (if b then .finish id' th :: log else log) = removedSince id log := by
  cases b <;> rfl

lemma mem_installTask_running {id' : TaskID} {name : String} {body : BodyID} {startNow : Bool} :
    id ∈ ((m.installTask id' name body).startTask id' startNow).sched.taskNameMapRunning ↔
      id = id' ∨ id ∈ m.sched.taskNameMapRunning := by
  unfold Machine.startTask
  split_ifs <;> simp [Machine.installTask, Machine.coroCreate, Machine.call]

lemma installTask_flags {id' : TaskID} {name : String} {body : BodyID} {startNow : Bool} :
    ((m.installTask id' name body).startTask id' startNow).sched.userRemovalTasksSet =
      m.sched.userRemovalTasksSet.erase id' := by
  unfold Machine.startTask
  split_ifs <;> simp [Machine.installTask, Machine.coroCreate, Machine.call]

lemma Chosen.running {s s' : Scheduler} {user : Option TaskID} (h : Chosen s user id s') :
    s'.taskNameMapRunning = s.taskNameMapRunning ∧
      s'.userRemovalTasksSet = s.userRemovalTasksSet ∧
      s'.pendingRemovalTasks = s.pendingRemovalTasks := by
  cases h with
  | given => exact ⟨rfl, rfl, rfl⟩
  | fresh _ _ h => rw [(Scheduler.allocTaskId_eq_some h).2.2.2]; exact ⟨rfl, rfl, rfl⟩

lemma ChosenEvent.running {s s' : Scheduler} {user : Option EventID} {e : EventID}
    (h : ChosenEvent s user e s') :
    s'.taskNameMapRunning = s.taskNameMapRunning ∧
      s'.userRemovalTasksSet = s.userRemovalTasksSet ∧
      s'.pendingRemovalTasks = s.pendingRemovalTasks := by
  cases h with
  | given => exact ⟨rfl, rfl, rfl⟩
  | fresh _ _ h => rw [(Scheduler.allocEventId_eq_some h).2.2.2]; exact ⟨rfl, rfl, rfl⟩

lemma Cleaned.running {s s' : Scheduler} (h : Cleaned s id a s') :
    s'.taskNameMapRunning = s.taskNameMapRunning := by
  cases h with
  | notRunning | pending => rfl
  | flagged | tried => exact clearUserRemoval_running s id

lemma Cleaned.mem_flags {s s' : Scheduler} (h : Cleaned s id a s') {i : TaskID} (hne : i ≠ id) :
    i ∈ s'.userRemovalTasksSet ↔ i ∈ s.userRemovalTasksSet := by
  cases h with
  | notRunning | pending => exact Iff.rfl
  | flagged | tried => simp [hne]

lemma installTask_pending {id' : TaskID} {name : String} {body : BodyID} {startNow : Bool} :
    ((m.installTask id' name body).startTask id' startNow).sched.pendingRemovalTasks =
      m.sched.pendingRemovalTasks := by
  unfold Machine.startTask
  split_ifs <;> simp [Machine.installTask, Machine.coroCreate, Machine.call]

lemma Cleaned.mem_pending {s s' : Scheduler} (h : Cleaned s id a s') {i : TaskID} (hne : i ≠ id) :
    i ∈ s'.pendingRemovalTasks ↔ i ∈ s.pendingRemovalTasks := by
  cases h with
  | notRunning => exact Iff.rfl
  | flagged | tried => simp
  | pending _ _ k hk =>
    obtain ⟨hlt, hid, -⟩ := List.findIdx?_eq_some_iff_getElem.mp hk
    have hmem := EventBus.mem_eraseIdx_or (x := i) (List.getElem?_eq_getElem hlt)
    refine ⟨fun h => List.eraseIdx_subset h, fun h => (hmem h).resolve_left ?_⟩
    rintro rfl
    exact hne (by simpa using hid)

lemma Rule.mem_running (hr : Rule m a m') (hc : m.sched.Counted) (hf : m'.fault = none)
    (hid : id ∈ m'.sched.taskNameMapRunning) :
    id ∈ m.sched.taskNameMapRunning ∨ ∃ th, m'.log = .create id th :: m.log := by
  cases hr with
  | fault hf' | removeFault _ hf' | resumeFault _ _ _ _ _ _ _ _ _ hf' => simp [hf] at hf'
  | skip id₀ =>
    simp only [Scheduler.unregister, clearUserRemoval_running, Finmap.mem_erase] at hid
    exact .inl (hc.mem_drain.mp hid.2).1
  | resume => exact .inl (hc.mem_drain.mp hid).1
  | yieldedLoop | yieldedReturn => exact .inl (by simpa using hid)
  | append user id₀ name body startNow s hs hch =>
    rcases mem_installTask_running.mp hid with rfl | hid
    · exact .inr ⟨m.nextThread, startTask_log⟩
    · exact .inl (hch.running.1 ▸ hid)
  | restart _ id₀ name body s hs hcl =>
    rcases Finmap.mem_insert.mp hid with rfl | hid
    · exact .inr ⟨m.nextThread, rfl⟩
    · exact .inl (hcl.running ▸ hid)
  | newEventHdl name user e s hs hch => exact .inl (hch.running.1 ▸ hid)
  | remove | removeWaiting => exact .inl (by simpa using hid)
  | _ => exact .inl hid

/-- A removal flag lasts until `schedule_task` returns on it or the id is restarted. -/
lemma Rule.mem_flags (hr : Rule m a m') (hf : m'.fault = none)
    (hid : id ∈ m.sched.userRemovalTasksSet) :
    id ∈ m'.sched.userRemovalTasksSet ∨ (∃ th, m'.log = .create id th :: m.log) ∨
      ∃ rest, m.stack = .call id :: rest ∧ m' = { m with
        sched := (m.sched.drainPendingRemoval.clearUserRemoval id).unregister id
        stack := rest
        log := .skip id :: m.log } ∧ a = .enter := by
  cases hr with
  | fault hf' | removeFault _ hf' | resumeFault _ _ _ _ _ _ _ _ _ hf' => simp [hf] at hf'
  | skip id₀ rest hs =>
    by_cases heq : id = id₀
    · subst heq
      exact .inr (.inr ⟨rest, hs, rfl, rfl⟩)
    · exact .inl (by simp [Scheduler.unregister, heq, hid])
  | resume => exact .inl (by simpa using hid)
  | yieldedLoop | yieldedReturn => exact .inl (by simpa using hid)
  | append user id₀ name body startNow s hs hch =>
    by_cases heq : id = id₀
    · subst heq
      exact .inr (.inl ⟨m.nextThread, startTask_log⟩)
    · left
      rw [installTask_flags, Finset.mem_erase]
      exact ⟨heq, hch.running.2.1 ▸ hid⟩
  | restart _ id₀ name body s hs hcl =>
    by_cases heq : id = id₀
    · subst heq
      exact .inr (.inl ⟨m.nextThread, rfl⟩)
    · exact .inl ((hcl.mem_flags heq).mpr hid)
  | newEventHdl name user e s hs hch => exact .inl (hch.running.2.1 ▸ hid)
  | remove | removeWaiting => exact .inl (mem_flagUserRemoval_flags.mpr (.inl hid))
  | _ => exact .inl hid

lemma removedSince_remove {id₀ : TaskID} (s : Scheduler) {log : List Ev}
    (h : removedSince id (.remove id₀ (s.checkTaskExists id₀) :: log) = true) :
    removedSince id log = true ∨ id ∈ (s.flagUserRemoval id₀).userRemovalTasksSet := by
  simp only [removedSince, Scheduler.checkTaskExists, Bool.or_eq_true, Bool.and_eq_true,
    decide_eq_true_eq] at h
  rcases h with ⟨rfl, hrun⟩ | h
  · exact .inr (mem_flagUserRemoval_flags.mpr (.inr ⟨rfl, hrun⟩))
  · exact .inl h

lemma removedSince_create {id₀ : TaskID} {th : ThreadID} {log : List Ev}
    (h : removedSince id (.create id₀ th :: log) = true) :
    id₀ ≠ id ∧ removedSince id log = true := by
  simpa [removedSince] using h

lemma Rule.removed (hr : Rule m a m') (hf : m'.fault = none) (hid : m'.removed id) :
    (m.removed id ∧ ∀ th, m'.log ≠ .create id th :: m.log) ∨
      id ∈ m'.sched.userRemovalTasksSet := by
  cases hr with
  | fault hf' | removeFault _ hf' | resumeFault _ _ _ _ _ _ _ _ _ hf' => simp [hf] at hf'
  | skip | resume | loopWake | send | wait | insertWaiter =>
    exact .inl ⟨hid, fun th h => by cases h⟩
  | yieldedLoop id₀ th oldCurr y | yieldedReturn id₀ th oldCurr y =>
    refine .inl ⟨by simpa [Machine.removed, removedSince_finish] using hid, fun th h => ?_⟩
    dsimp only at h
    split_ifs at h
    · cases h
    · exact (List.cons_ne_self _ _).symm h
  | append user id₀ name body startNow s hs hch =>
    rw [Machine.removed, startTask_log] at hid
    obtain ⟨hne, hid⟩ := removedSince_create hid
    refine .inl ⟨hid, fun th h => hne ?_⟩
    rw [startTask_log] at h
    cases h
    rfl
  | restart _ id₀ =>
    obtain ⟨hne, hid⟩ := removedSince_create hid
    exact .inl ⟨hid, fun th h => hne (by cases h; rfl)⟩
  | remove id₀ =>
    exact (removedSince_remove m.sched hid).imp_left fun hid => ⟨hid, fun th h => by cases h⟩
  | removeWaiting id₀ =>
    exact (removedSince_remove m.sched hid).imp_left fun hid => ⟨hid, fun th h => by cases h⟩
  | _ => exact .inl ⟨hid, fun th h => (List.cons_ne_self _ _).symm h⟩

/-! ### Removal is effective -/

/-- `schedule_task` takes the removal flag of `id` when nothing else will schedule `id` or is about
to run its code. -/
def Machine.flagTakenLast (m : Machine) : Act → Bool
  | .enter =>
    match m.stack with
    | .call id :: rest => decide (id ∉ m.sched.userRemovalTasksSet) ||
        !m.awaited rest id && decide (id ∉ m.sched.posedgeTasks ∧ id ∉ m.sched.negedgeTasks)
    | _ => true
  | _ => true

/-- A removed id still has its flag, or nothing is left that could schedule it. -/
def RemovedStays (m : Machine) : Prop :=
  ∀ id, m.removed id → id ∈ m.sched.userRemovalTasksSet ∨
    id ∉ m.sched.taskNameMapRunning ∧ Idle m id

lemma RemovedStays.step (h : RemovedStays m) (hcount : m.sched.Counted) (hcurr : CurrentTask m)
    (hok : m.flagTakenLast a = true) (hr : Rule m a m') (hf : m'.fault = none) :
    RemovedStays m' := by
  intro id hid
  rcases hr.removed hf hid with ⟨hold, hcreate⟩ | hflag
  swap
  · exact .inl hflag
  rcases h id hold with hflag | ⟨hrun, hidle⟩
  · rcases hr.mem_flags hf hflag with hflag' | ⟨th, hlog⟩ | ⟨rest, hs, rfl, rfl⟩
    · exact .inl hflag'
    · exact absurd hlog (hcreate th)
    · -- the flag is taken: by the condition there is no other registration
      simp only [Machine.flagTakenLast, hs, hflag, not_true_eq_false, decide_false, Bool.false_or,
        Bool.and_eq_true, Bool.not_eq_true', decide_eq_true_eq] at hok
      obtain ⟨hcb, hwait, hrest⟩ := not_awaited hok.1
      have hk := keeps_skip m.sched id
      refine .inr ⟨by simp [Scheduler.unregister], hcb, fun e w hw => ?_, hrest, ?_, ?_⟩
      · exact hwait e w (congrArg EventTables.waiting hk.eventTables ▸ hw)
      · rw [hk.posedgeTasks]; exact hok.2.1
      · rw [hk.negedgeTasks]; exact hok.2.2
  · refine .inr ⟨fun hrun' => ?_, hidle.step hcurr.curr hr hf (fun _ hrun' => absurd hrun' hrun) hcreate⟩
    rcases hr.mem_running hcount hf hrun' with hrun' | ⟨th, hlog⟩
    · exact hrun hrun'
    · exact hcreate th hlog

lemma RemovedStays.not_removed (h : RemovedStays m) (hcount : m.sched.Counted)
    {rest : List Frame} (hs : m.stack = .call id :: rest)
    (hskip : ¬ (0 < m.sched.nrUserRemovalTasks ∧ id ∈ m.sched.userRemovalTasksSet)) :
    removedSince id m.log = false := by
  by_contra hrem
  rcases h id (by simpa [Machine.removed] using hrem) with hflag | ⟨-, hidle⟩
  · exact hskip ⟨hcount.nrUser_pos hflag, hflag⟩
  · have hcall := hidle.stack (.call id) (hs ▸ List.mem_cons_self)
    simp [Frame.holds] at hcall

lemma removalRespected_step (h : removalRespected m.log = true) (hrem : RemovedStays m)
    (hcount : m.sched.Counted) (hr : Rule m a m') : removalRespected m'.log = true := by
  cases hr with
  | fault _ hlog => rw [hlog]; exact h
  | removeFault _ _ hlog => rw [hlog]; exact h
  | resumeFault id rest th t hs hskip _ _ _ _ hlog =>
    rw [hlog]
    simp [removalRespected, hrem.not_removed hcount hs hskip, h]
  | resume id rest cnt th t hs hskip =>
    simp [removalRespected, hrem.not_removed hcount hs hskip, h]
  | yieldedLoop id₀ th oldCurr y | yieldedReturn id₀ th oldCurr y =>
    dsimp only
    split_ifs <;> exact h
  | append => rw [startTask_log]; exact h
  | _ => exact h

/-- In a run whose steps take every removal flag last, a removed task is not resumed again until a
coroutine is installed for it. -/
theorem removalRespected_of_flagTakenLast
    (h : Machine.Reached mode (fun m a => m.flagTakenLast a = true) m) :
    removalRespected m.log = true := by
  refine (Reach.invariant (I := fun m : Machine => removalRespected m.log = true ∧
    (m.fault = none → RemovedStays m)) h ⟨rfl, fun _ id hid => ?_⟩ ?_).1
  · simp [Machine.removed, Machine.init, removedSince] at hid
  · rintro m a m' hm ⟨hlog, hrem⟩ hok hs
    obtain ⟨hf, hr⟩ := Rule.of_step hs
    have hcount := counted_of_reached hm hf
    exact ⟨removalRespected_step hlog (hrem hf) hcount hr,
      (hrem hf).step hcount (currentTask_of_reached hm hf) hok hr⟩

/-- `A: always_await_posedge(clk)`. It is removed; the next edge takes the flag, and the edge after
that resumes it. -/
def alwaysCallbackOfRemoved : List Act :=
  [.appendTask none "A" 0 true, .enter, .awaitCallback true, .yielded, .removeTask 1,
   .fire 0, .enter, .fire 0, .enter]

theorem not_removalRespected :
    ¬ ∀ mode m, Machine.Reached mode Unguarded m → removalRespected m.log = true := by
  intro h
  have hrun : (run Machine.step (Machine.init .normal) alwaysCallbackOfRemoved).map
      (fun m => removalRespected m.log) = some false := by decide +kernel
  obtain ⟨m, hm, hlog⟩ := Option.map_eq_some_iff.mp hrun
  have hrespected := h .normal m (reach_of_run hm)
  rw [hlog] at hrespected
  cases hrespected

/-- `A: await_posedge(clk)`. It is removed, the edge takes the flag, and `A` is started again. -/
def removedAndRestarted : List Act :=
  [.appendTask none "A" 0 true, .enter, .awaitCallback false, .yielded, .removeTask 1,
   .fire 0, .enter, .appendTask (some 1) "A" 0 true, .enter]

theorem removalRespected_of_removedAndRestarted :
    ∃ m, runChecked Machine.step (fun m a => m.flagTakenLast a = true) (Machine.init .normal)
        removedAndRestarted = some m ∧
      .remove 1 true ∈ m.log ∧ .resume 1 1 false ∈ m.log ∧ removalRespected m.log = true := by
  have hrun : (runChecked Machine.step (fun m a => m.flagTakenLast a = true) (Machine.init .normal)
      removedAndRestarted).map
        (fun m => decide (.remove 1 true ∈ m.log ∧ .resume 1 1 false ∈ m.log)) = some true := by
    decide +kernel
  obtain ⟨m, hm, hlog⟩ := Option.map_eq_some_iff.mp hrun
  obtain ⟨hremove, hresume⟩ := of_decide_eq_true hlog
  exact ⟨m, hm, hremove, hresume, removalRespected_of_flagTakenLast (reach_of_runChecked hm)⟩

end Verilua
