import Verilua.Scheduler.Basic
import Mathlib.Tactic.Common

/-!
# The functions of `gen_scheduler.lua`

Each function is the Lua one with the tables of the machine in place of `self`. A failed
`assert` or a runtime error ends the run with a fault. A call of `schedule_task` only pushes a
frame; its three parts are `scheduleTask`, up to `coro_resume`, `taskYielded`, from there to the
wake-up loop, and `wakeupLoop`, one move of that loop.
-/

namespace Verilua

/-! ### Ids -/

def isValidTaskId (id : TaskID) : Bool := id ≤ schedulerMaxTaskId && schedulerMinTaskId ≤ id

def isValidEventId (id : EventID) : Bool := id ≤ schedulerMaxEventId && schedulerMinEventId ≤ id

def Scheduler.checkTaskExists (s : Scheduler) (id : TaskID) : Bool :=
  decide (id ∈ s.taskNameMapRunning)

/-- The search loop of `_alloc_task_id` and `_alloc_event_id`: the first id from `next` on that
is not in the table, `none` where it runs past `max`. `fuel` is the number of ids left. -/
def allocLoop (used : Nat → Option String) (max : Nat) : Nat → Nat → Option Nat
  | 0, _ => none
  | fuel + 1, next =>
    if (used next).isSome then
      if max < next + 1 then none else allocLoop used max fuel (next + 1)
    else some next

/-- `_alloc_task_id`: the id, and the scheduler with `next_task_id` behind it. -/
def Scheduler.allocTaskId (s : Scheduler) : Option (TaskID × Scheduler) :=
  match allocLoop s.taskNameMapArchived schedulerMaxTaskId
      (schedulerMaxTaskId + 1 - s.nextTaskId) s.nextTaskId with
  | none => none
  | some id =>
    if schedulerMaxTaskId < id + 1 then none else some (id, { s with nextTaskId := id + 1 })

/-- `_alloc_event_id`. -/
def Scheduler.allocEventId (s : Scheduler) : Option (EventID × Scheduler) :=
  match allocLoop s.eventNameMap schedulerMaxEventId
      (schedulerMaxEventId + 1 - s.nextEventId) s.nextEventId with
  | none => none
  | some id =>
    if schedulerMaxEventId < id + 1 then none else some (id, { s with nextEventId := id + 1 })

lemma allocLoop_eq_some {used : Nat → Option String} {max fuel next id : Nat}
    (h : allocLoop used max fuel next = some id) :
    used id = none ∧ next ≤ id ∧ (next ≤ max → id ≤ max) := by
  induction fuel generalizing next with
  | zero => simp [allocLoop] at h
  | succ fuel ih =>
    unfold allocLoop at h
    split_ifs at h with hused hmax
    · obtain ⟨hid, hle, hbound⟩ := ih h
      exact ⟨hid, by omega, fun _ => hbound (by omega)⟩
    · cases h
      exact ⟨by simpa using hused, Nat.le_refl _, fun hle => hle⟩

lemma Scheduler.allocTaskId_eq_some {s s' : Scheduler} {id : TaskID}
    (h : s.allocTaskId = some (id, s')) :
    s.taskNameMapArchived id = none ∧ s.nextTaskId ≤ id ∧ id < schedulerMaxTaskId ∧
      s' = { s with nextTaskId := id + 1 } := by
  unfold Scheduler.allocTaskId at h
  split at h
  · cases h
  · next id' hloop =>
    split_ifs at h with hmax
    obtain ⟨hid, hle, -⟩ := allocLoop_eq_some hloop
    cases h
    exact ⟨hid, hle, Nat.le_of_not_lt hmax, rfl⟩

lemma Scheduler.allocEventId_eq_some {s s' : Scheduler} {e : EventID}
    (h : s.allocEventId = some (e, s')) :
    s.eventNameMap e = none ∧ s.nextEventId ≤ e ∧ e < schedulerMaxEventId ∧
      s' = { s with nextEventId := e + 1 } := by
  unfold Scheduler.allocEventId at h
  split at h
  · cases h
  · next e' hloop =>
    split_ifs at h with hmax
    obtain ⟨he, hle, -⟩ := allocLoop_eq_some hloop
    cases h
    exact ⟨he, hle, Nat.le_of_not_lt hmax, rfl⟩

/-! ### Removal -/

/-- `_remove_task`. In `EDGE_STEP` the second table is looked at only if the first has no
entry. -/
def Scheduler.removeTask' (s : Scheduler) (mode : Mode) (id : TaskID) : Scheduler :=
  let s := { s with
    pendingRemovalTasks := s.pendingRemovalTasks ++ [id]
    nrPendingRemovalTasks := s.nrPendingRemovalTasks + 1 }
  if mode = .edgeStep then
    if id ∈ s.posedgeTasks then { s with posedgeTasks := s.posedgeTasks.erase id }
    else if id ∈ s.negedgeTasks then { s with negedgeTasks := s.negedgeTasks.erase id }
    else s
  else s

/-- What `schedule_task` does to the maps of an id that it takes out of the running ones. -/
def Scheduler.unregister (s : Scheduler) (id : TaskID) : Scheduler := { s with
  taskNameMapRunning := s.taskNameMapRunning.erase id
  taskExecutionCountMap := Function.update s.taskExecutionCountMap id (some 0)
  taskFiredStatusMap := Function.update s.taskFiredStatusMap id false }

/-- The first block of `schedule_task`: drain `pending_removal_tasks`. -/
def Scheduler.drainPendingRemoval (s : Scheduler) : Scheduler :=
  if 0 < s.nrPendingRemovalTasks then
    { (s.pendingRemovalTasks.take s.nrPendingRemovalTasks).foldl Scheduler.unregister s with
      nrPendingRemovalTasks := 0
      pendingRemovalTasks := [] }
  else s

/-- Take `id` out of `user_removal_tasks_set`, if it is there. -/
def Scheduler.clearUserRemoval (s : Scheduler) (id : TaskID) : Scheduler :=
  if id ∈ s.userRemovalTasksSet then { s with
    userRemovalTasksSet := s.userRemovalTasksSet.erase id
    nrUserRemovalTasks := s.nrUserRemovalTasks - 1 }
  else s

/-- The first half of `remove_task`: flag `id` if it is in the running map. -/
def Scheduler.flagUserRemoval (s : Scheduler) (id : TaskID) : Scheduler :=
  if id ∈ s.taskNameMapRunning then { s with
    userRemovalTasksSet := insert id s.userRemovalTasksSet
    nrUserRemovalTasks := s.nrUserRemovalTasks + 1 }
  else s

/-- The second half of `remove_task`: take `id` off the list of the event it last waited for. -/
def Machine.unregisterEvent (m : Machine) (id : TaskID) : Machine :=
  match m.sched.taskIdToEventIdMap id with
  | none => m
  | some e =>
    match m.sched.eventTaskIdListMap.lookup e with
    | none => m.fail (.nilValue "event_task_id_list_map")
    | some l =>
      if 1 < l.countP fun w => w.taskId = id then
        m.fail (.assertion ("[Scheduler] Task ID appears multiple times in event_task_id_list_map! task_id: "
          ++ toString id ++ ", event_id: " ++ toString e))
      else
        match l.findIdx? fun w => w.taskId = id with
        | none => m
        | some idx => { m with
            sched := { m.sched with
              eventTaskIdListMap :=
                m.sched.eventTaskIdListMap.insert e (l.eraseIdx idx) }
            log := ((l[idx]?).map (Ev.unwait e)).toList ++ m.log }

/-- `remove_task`. -/
def Machine.removeTask (m : Machine) (id : TaskID) : Machine :=
  if m.sched.taskNameMapArchived id = none then
    if id = 0 then
      m.fail (.assertion ("[Scheduler] Invalid task id: 0, `task id: 0` is not a valid task id(used for representing a non-initialized task), the available task id range is from "
        ++ toString schedulerMinTaskId ++ " to " ++ toString schedulerMaxTaskId))
    else m.fail (.assertion ("[Scheduler] Invalid task id! task id: " ++ toString id))
  else
    Machine.unregisterEvent { m with
      sched := m.sched.flagUserRemoval id
      log := .remove id (m.sched.checkTaskExists id) :: m.log } id

/-! ### Events -/

/-- The tables of the events, which the functions on tasks leave alone. -/
structure EventTables where
  eventTaskIdListMap : Finmap fun _ : EventID => List Waiter
  eventNameMap : EventID → Option String
  nextEventId : EventID
  taskIdToEventIdMap : TaskID → Option EventID
  hasWakeupEvent : Bool
  pendingWakeupEvent : List EventID
  currWakeupEventId : Option EventID

def Scheduler.eventTables (s : Scheduler) : EventTables where
  eventTaskIdListMap := s.eventTaskIdListMap
  eventNameMap := s.eventNameMap
  nextEventId := s.nextEventId
  taskIdToEventIdMap := s.taskIdToEventIdMap
  hasWakeupEvent := s.hasWakeupEvent
  pendingWakeupEvent := s.pendingWakeupEvent
  currWakeupEventId := s.currWakeupEventId

/-- `s'` differs from `s` in the running map, the two removal sets and the maps that removal
resets, and in nothing else. -/
structure Keeps (s s' : Scheduler) : Prop where
  taskCoroutineMap : s'.taskCoroutineMap = s.taskCoroutineMap
  taskBodyMap : s'.taskBodyMap = s.taskBodyMap
  taskNameMapArchived : s'.taskNameMapArchived = s.taskNameMapArchived
  posedgeTasks : s'.posedgeTasks = s.posedgeTasks
  negedgeTasks : s'.negedgeTasks = s.negedgeTasks
  nextTaskId : s'.nextTaskId = s.nextTaskId
  eventTables : s'.eventTables = s.eventTables
  currTaskId : s'.currTaskId = s.currTaskId

section Keeps

variable (s : Scheduler) (id : TaskID)

lemma Keeps.refl : Keeps s s := by constructor <;> rfl

lemma Keeps.trans {s s' s'' : Scheduler} (h : Keeps s s') (h' : Keeps s' s'') : Keeps s s'' :=
  ⟨h'.1.trans h.1, h'.2.trans h.2, h'.3.trans h.3, h'.4.trans h.4, h'.5.trans h.5,
    h'.6.trans h.6, h'.7.trans h.7, h'.8.trans h.8⟩

lemma keeps_unregister : Keeps s (s.unregister id) := by constructor <;> rfl

lemma keeps_foldl_unregister (l : List TaskID) : Keeps s (l.foldl Scheduler.unregister s) := by
  induction l generalizing s with
  | nil => exact .refl s
  | cons id l ih => exact (keeps_unregister s id).trans (ih _)

lemma keeps_drainPendingRemoval : Keeps s s.drainPendingRemoval := by
  unfold Scheduler.drainPendingRemoval
  split_ifs
  · have h := keeps_foldl_unregister s (s.pendingRemovalTasks.take s.nrPendingRemovalTasks)
    exact ⟨h.1, h.2, h.3, h.4, h.5, h.6, h.7, h.8⟩
  · exact .refl s

lemma foldl_unregister_userRemoval (l : List TaskID) :
    (l.foldl Scheduler.unregister s).userRemovalTasksSet = s.userRemovalTasksSet ∧
      (l.foldl Scheduler.unregister s).nrUserRemovalTasks = s.nrUserRemovalTasks := by
  induction l generalizing s with
  | nil => exact ⟨rfl, rfl⟩
  | cons id l ih => exact ih (s.unregister id)

@[simp] lemma drainPendingRemoval_userRemovalTasksSet :
    s.drainPendingRemoval.userRemovalTasksSet = s.userRemovalTasksSet := by
  unfold Scheduler.drainPendingRemoval
  split_ifs
  · exact (foldl_unregister_userRemoval s _).1
  · rfl

@[simp] lemma drainPendingRemoval_nrUserRemovalTasks :
    s.drainPendingRemoval.nrUserRemovalTasks = s.nrUserRemovalTasks := by
  unfold Scheduler.drainPendingRemoval
  split_ifs
  · exact (foldl_unregister_userRemoval s _).2
  · rfl

lemma keeps_clearUserRemoval : Keeps s (s.clearUserRemoval id) := by
  unfold Scheduler.clearUserRemoval
  split_ifs
  · constructor <;> rfl
  · exact .refl s

lemma keeps_flagUserRemoval : Keeps s (s.flagUserRemoval id) := by
  unfold Scheduler.flagUserRemoval
  split_ifs
  · constructor <;> rfl
  · exact .refl s

lemma removeTask'_eventTables (mode : Mode) :
    (s.removeTask' mode id).eventTables = s.eventTables := by
  unfold Scheduler.removeTask'
  dsimp only
  split_ifs <;> rfl

end Keeps

/-- `table.insert(event_task_id_list_map[e], id)`. -/
def Machine.insertWaiter (m : Machine) (e : EventID) (id : TaskID) : Machine :=
  match m.sched.eventTaskIdListMap.lookup e with
  | none => m.fail (.nilValue "event_task_id_list_map")
  | some l => { m with
      sched := { m.sched with
        eventTaskIdListMap :=
          m.sched.eventTaskIdListMap.insert e (l ++ [⟨id, m.nextWaitNo⟩]) }
      nextWaitNo := m.nextWaitNo + 1
      log := .register e ⟨id, m.nextWaitNo⟩ :: m.log }

/-- `register_event`. -/
def Machine.registerEvent (m : Machine) (e : EventID) (id : TaskID) : Machine :=
  if m.sched.eventNameMap e = none then
    m.fail (.assertion ("Unknown event => " ++ toString e))
  else
    Machine.insertWaiter { m with
      sched := { m.sched with
        taskIdToEventIdMap := Function.update m.sched.taskIdToEventIdMap id (some e) } } e id

/-- `send_event`. -/
def Machine.sendEvent (m : Machine) (e : EventID) : Machine := { m with
  sched := { m.sched with
    pendingWakeupEvent := m.sched.pendingWakeupEvent ++ [e]
    hasWakeupEvent := true }
  log := .send e (m.sched.waiting e) :: m.log }

/-- What `new_event_hdl` does once it has the event's id. -/
def Scheduler.installEvent (s : Scheduler) (name : String) (e : EventID) : Scheduler := { s with
  eventNameMap := Function.update s.eventNameMap e (some name)
  eventTaskIdListMap := s.eventTaskIdListMap.insert e [] }

/-- `new_event_hdl` and its alias `get_event_hdl`. -/
def Machine.newEventHdl (m : Machine) (name : String) (userEventId : Option EventID) : Machine :=
  match userEventId with
  | none =>
    match m.sched.allocEventId with
    | none => m.fail (.assertion
        "[Scheduler] Failed to allocate event id! There are no available event id!")
    | some (e, s) => { m with sched := s.installEvent name e }
  | some e =>
    if isValidEventId e then { m with sched := m.sched.installEvent name e }
    else m.fail (.assertion ("[Scheduler] Invalid event id: " ++ toString e))

/-- The method `remove` of an event handle. -/
def Machine.removeEvent (m : Machine) (e : EventID) : Machine := { m with
  sched := { m.sched with eventNameMap := Function.update m.sched.eventNameMap e none } }

/-! ### Scheduling one task -/

/-- `self:schedule_task(id)`, called from wherever the machine is. -/
def Machine.call (m : Machine) (id : TaskID) : Machine :=
  { m with stack := .call id :: m.stack }

/-- `coro_resume(task_coroutine_map[id])`, up to where the coroutine runs. -/
def Machine.coroResume (m : Machine) (id : TaskID) : Machine :=
  match m.sched.taskCoroutineMap id with
  | none => m.fail (.nilValue "task_coroutine_map")
  | some th =>
    match m.threads th with
    | none => m.fail (.nilValue "task_coroutine_map")
    | some t =>
      if t.status = .suspended then { m with
        threads := Function.update m.threads th (some { t with status := .active })
        sched := { m.sched with currTaskId := id }
        stack := .body id th m.sched.currTaskId :: m.stack
        log := .resume id th t.finished :: m.log }
      else { m with fault := some (.resume t.status), log := .resume id th t.finished :: m.log }

/-- `schedule_task` up to `coro_resume`, the calls below it being `rest`. -/
def Machine.scheduleTask (m : Machine) (id : TaskID) (rest : List Frame) : Machine :=
  let s := m.sched.drainPendingRemoval
  if 0 < s.nrUserRemovalTasks ∧ id ∈ s.userRemovalTasksSet then { m with
    sched := (s.clearUserRemoval id).unregister id
    stack := rest
    log := .skip id :: m.log }
  else
    match s.taskExecutionCountMap id with
    | none => m.fail (.nilValue "task_execution_count_map")
    | some cnt =>
      Machine.coroResume { m with
        sched := { s with
          taskExecutionCountMap := Function.update s.taskExecutionCountMap id (some (cnt + 1)) }
        stack := rest } id

/-- What `schedule_task` does to its tables when `coro_resume` has given `y` back. -/
def Scheduler.settle (s : Scheduler) (mode : Mode) (id oldCurr : TaskID) (y : Yielded) : Scheduler :=
  if y.finishes then { s with currTaskId := oldCurr }.removeTask' mode id
  else { s with currTaskId := oldCurr }

lemma settle_eventTables (s : Scheduler) (mode : Mode) (id oldCurr : TaskID) (y : Yielded) :
    (s.settle mode id oldCurr y).eventTables = s.eventTables := by
  unfold Scheduler.settle
  split_ifs
  · exact removeTask'_eventTables _ id mode
  · rfl

/-- `schedule_task(id)` from where `coro_resume` of `th` has given `y` back to where it returns
or enters its wake-up loop, the calls below it being `rest`. -/
def Machine.taskYielded (m : Machine) (id : TaskID) (th : ThreadID) (oldCurr : TaskID)
    (y : Yielded) (rest : List Frame) : Machine :=
  if y = .unknown then m.fail (.assertion "Unknown callback type yielded by task! callback type: ")
  else
    let s := m.sched.settle m.mode id oldCurr y
    let log := if y.finishes then .finish id th :: m.log else m.log
    if s.hasWakeupEvent then { m with
      sched := { s with hasWakeupEvent := false }
      stack := .wakeup 0 none :: rest
      log := log }
    else { m with sched := s, stack := rest, log := log }

/-- One move of the wake-up loop of `schedule_task`, the calls below it being `rest`. -/
def Machine.wakeupLoop (m : Machine) (next : Nat) (taken : Option (EventID × List Waiter))
    (rest : List Frame) : Machine :=
  match taken with
  | some (e, w :: ws) => { m with
      stack := .call w.taskId :: .wakeup next (some (e, ws)) :: rest
      log := .wake e w :: m.log }
  | some (_, []) => { m with
      sched := { m.sched with currWakeupEventId := none }
      stack := .wakeup next none :: rest }
  | none =>
    match m.sched.pendingWakeupEvent[next]? with
    | some e =>
      match m.sched.eventTaskIdListMap.lookup e with
      | none => m.fail (.nilValue "event_task_id_list_map")
      | some l => { m with
          sched := { m.sched with
            currWakeupEventId := some e
            eventTaskIdListMap := m.sched.eventTaskIdListMap.insert e [] }
          stack := .wakeup (next + 1) (some (e, l)) :: rest
          handled := max m.handled (next + 1) }
    | none => { m with
        sched := { m.sched with pendingWakeupEvent := [] }
        stack := rest
        handled := 0 }

/-! ### Starting tasks -/

/-- `task_coroutine_map[id] = coro_create(body)`. -/
def Machine.coroCreate (m : Machine) (id : TaskID) (body : BodyID) : Machine := { m with
  threads := Function.update m.threads m.nextThread (some ⟨body, .suspended, false⟩)
  nextThread := m.nextThread + 1
  sched := { m.sched with
    taskCoroutineMap := Function.update m.sched.taskCoroutineMap id (some m.nextThread) }
  log := .create id m.nextThread :: m.log }

/-- `append_task` once it has the task's id, up to where the maps are filled. -/
def Machine.installTask (m : Machine) (id : TaskID) (name : String) (body : BodyID) : Machine :=
  Machine.coroCreate { m with
    sched := { m.sched.clearUserRemoval id with
      taskNameMapRunning := m.sched.taskNameMapRunning.insert id name
      taskNameMapArchived := Function.update m.sched.taskNameMapArchived id (some name)
      taskFiredStatusMap := Function.update m.sched.taskFiredStatusMap id false
      taskBodyMap := Function.update m.sched.taskBodyMap id (some body)
      taskExecutionCountMap := Function.update m.sched.taskExecutionCountMap id (some 0) } } id body

/-- The end of `append_task`. -/
def Machine.startTask (m : Machine) (id : TaskID) (startNow : Bool) : Machine :=
  if startNow && (m.mode = .normal || m.mode = .edgeStep) then
    Machine.call { m with
      sched := { m.sched with
        taskFiredStatusMap := Function.update m.sched.taskFiredStatusMap id true } } id
  else m

section StartTask

variable {m : Machine} {id : TaskID} {startNow : Bool}

lemma startTask_stack (m : Machine) (id : TaskID) (startNow : Bool) :
    (m.startTask id startNow).stack = m.stack ∨
      (m.startTask id startNow).stack = .call id :: m.stack := by
  unfold Machine.startTask
  split_ifs
  · exact .inr rfl
  · exact .inl rfl

lemma startTask_log : (m.startTask id startNow).log = m.log := by
  unfold Machine.startTask
  split_ifs <;> rfl

lemma startTask_fault :
    (m.startTask id startNow).fault = m.fault := by
  unfold Machine.startTask
  split_ifs <;> rfl

lemma startTask_nextWaitNo :
    (m.startTask id startNow).nextWaitNo = m.nextWaitNo := by
  unfold Machine.startTask
  split_ifs <;> rfl

lemma startTask_currTaskId :
    (m.startTask id startNow).sched.currTaskId = m.sched.currTaskId := by
  unfold Machine.startTask
  split_ifs <;> rfl

lemma startTask_threads :
    (m.startTask id startNow).threads = m.threads ∧
      (m.startTask id startNow).sched.taskCoroutineMap = m.sched.taskCoroutineMap := by
  unfold Machine.startTask
  split_ifs <;> exact ⟨rfl, rfl⟩

end StartTask

/-- `append_task`. -/
def Machine.appendTask (m : Machine) (id : Option TaskID) (name : String) (body : BodyID)
    (startNow : Bool) : Machine :=
  match id with
  | some id =>
    if !isValidTaskId id then m.fail (.assertion "[Scheduler] Invalid coroutine task id!")
    else if m.sched.checkTaskExists id && decide (id ∉ m.sched.userRemovalTasksSet) then
      m.fail (.assertion ("[Scheduler] Task already exists! task_id: " ++ toString id
        ++ ", task_name: " ++ (m.sched.taskNameMapRunning.lookup id).getD "nil"))
    else (m.installTask id name body).startTask id startNow
  | none =>
    match m.sched.allocTaskId with
    | none => m.fail (.assertion
        "[Scheduler] Failed to allocate task id! There are no available task id!")
    | some (id, s) => (Machine.installTask { m with sched := s } id name body).startTask id startNow

/-- The common end of `wakeup_task` and `try_wakeup_task`: a fresh coroutine of the stored body,
passed to `schedule_task`. -/
def Machine.restartTask (m : Machine) (id : TaskID) (name : String) : Machine :=
  match m.sched.taskBodyMap id with
  | none => m.fail (.nilValue "task_body_map")
  | some body =>
    (Machine.coroCreate { m with
      sched := { m.sched with
        taskNameMapRunning := m.sched.taskNameMapRunning.insert id name
        taskFiredStatusMap := Function.update m.sched.taskFiredStatusMap id true } } id body).call id

/-- `wakeup_task`. -/
def Machine.wakeupTask (m : Machine) (id : TaskID) : Machine :=
  match m.sched.taskNameMapArchived id with
  | none => m.fail (.assertion ("[Scheduler] Task not registered! task_id: " ++ toString id))
  | some name =>
    if m.sched.checkTaskExists id then
      if id ∈ m.sched.userRemovalTasksSet then
        Machine.restartTask { m with sched := m.sched.clearUserRemoval id } id name
      else
        match m.sched.pendingRemovalTasks.findIdx? fun r => r = id with
        | none => m.fail (.assertion ("[Scheduler] Task already running! task_id: " ++ toString id
            ++ ", task_name: " ++ name))
        | some i =>
          Machine.restartTask { m with
            sched := { m.sched with
              pendingRemovalTasks := m.sched.pendingRemovalTasks.eraseIdx i
              nrPendingRemovalTasks := m.sched.nrPendingRemovalTasks - 1 } } id name
    else m.restartTask id name

/-- `try_wakeup_task`. -/
def Machine.tryWakeupTask (m : Machine) (id : TaskID) : Machine :=
  if m.sched.checkTaskExists id && decide (id ∉ m.sched.userRemovalTasksSet) then m
  else
    match m.sched.taskNameMapArchived id with
    | none => m.fail (.assertion ("[Scheduler] Task not registered! task_id: " ++ toString id))
    | some name => Machine.restartTask { m with sched := m.sched.clearUserRemoval id } id name

end Verilua
