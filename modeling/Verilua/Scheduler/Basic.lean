import Mathlib.Data.Finmap
import Mathlib.Data.Finset.Basic
import Mathlib.Logic.Function.Basic

/-!
# The scheduler's tables and the machine that runs it

`Scheduler` has the fields of the Lua object built by `Scheduler:_init`, under the source's
names. A table that the source walks with `pairs` is a finite map or a finite set; one that is
only indexed is a function, `none` standing for `nil`.

A `Machine` adds what Lua keeps for the scheduler: the coroutines, and the stack of calls in
progress, since `schedule_task` calls itself and is called again from the bodies it resumes.
Task bodies are arbitrary, so a body is no data here: any action is possible at any point where
a body runs.
-/

namespace Verilua

abbrev TaskID := Nat
abbrev EventID := Nat

/-- The identity of a coroutine. -/
abbrev ThreadID := Nat

/-- The identity of a Lua function given as a task body. -/
abbrev BodyID := Nat

/-- `NULL_TASK_ID`: the value of `curr_task_id` outside every task. -/
def nullTaskId : TaskID := 0

def schedulerMinTaskId : TaskID := 1
def schedulerMaxTaskId : TaskID := 0xFFFFFFF
def schedulerMinEventId : EventID := 1
def schedulerMaxEventId : EventID := 0xFFFFFFF

/-- The scheduler that `gen_scheduler.lua` is expanded to. -/
inductive Mode
  | normal
  | step
  | edgeStep
  deriving DecidableEq, Repr

/-- An entry of an event's waiting list. `waitNo` numbers the insertions, so that two waits of
one task can be told apart; the code stores `taskId` only. -/
structure Waiter where
  taskId : TaskID
  waitNo : Nat
  deriving DecidableEq, Repr

structure Scheduler where
  taskCoroutineMap : TaskID → Option ThreadID
  taskBodyMap : TaskID → Option BodyID
  taskNameMapRunning : Finmap fun _ : TaskID => String
  taskNameMapArchived : TaskID → Option String
  taskFiredStatusMap : TaskID → Bool
  taskExecutionCountMap : TaskID → Option Nat
  nrUserRemovalTasks : Int
  userRemovalTasksSet : Finset TaskID
  pendingRemovalTasks : List TaskID
  nrPendingRemovalTasks : Nat
  posedgeTasks : Finset TaskID
  negedgeTasks : Finset TaskID
  nextTaskId : TaskID
  nextEventId : EventID
  eventTaskIdListMap : Finmap fun _ : EventID => List Waiter
  eventNameMap : EventID → Option String
  taskIdToEventIdMap : TaskID → Option EventID
  hasWakeupEvent : Bool
  pendingWakeupEvent : List EventID
  currTaskId : TaskID
  currWakeupEventId : Option EventID

/-- `Scheduler:_init`. -/
def Scheduler.init : Scheduler where
  taskCoroutineMap := fun _ => none
  taskBodyMap := fun _ => none
  taskNameMapRunning := ∅
  taskNameMapArchived := fun _ => none
  taskFiredStatusMap := fun _ => false
  taskExecutionCountMap := fun _ => none
  nrUserRemovalTasks := 0
  userRemovalTasksSet := ∅
  pendingRemovalTasks := []
  nrPendingRemovalTasks := 0
  posedgeTasks := ∅
  negedgeTasks := ∅
  nextTaskId := schedulerMinTaskId
  nextEventId := schedulerMinEventId
  eventTaskIdListMap := ∅
  eventNameMap := fun _ => none
  taskIdToEventIdMap := fun _ => none
  hasWakeupEvent := false
  pendingWakeupEvent := []
  currTaskId := nullTaskId
  currWakeupEventId := none

/-- `coroutine.status`; `active` stands for both "running" and "normal". -/
inductive CoStatus
  | suspended
  | active
  | dead
  deriving DecidableEq, Repr

structure Thread where
  body : BodyID
  status : CoStatus
  /-- The body has returned or has yielded `EarlyExit`. -/
  finished : Bool
  deriving DecidableEq, Repr

/-- A callback registered with the simulator for a task: one-shot, or permanent (`always`).
`thread` is the coroutine that registered it, which the code does not store. -/
structure Callback where
  taskId : TaskID
  always : Bool
  thread : ThreadID
  deriving DecidableEq, Repr

/-- Which table a pass walks with `pairs`. -/
inductive PassKind
  | all
  | posedge
  | negedge
  deriving DecidableEq, Repr

/-- What `coro_resume` gives back to `schedule_task`: `nil` where the body has returned, else
what the body yielded. A body that yields `nil` itself is an `earlyExit` to the scheduler. -/
inductive Yielded
  | returned
  | earlyExit
  | noop
  | unknown
  deriving DecidableEq, Repr

def Yielded.finishes : Yielded → Bool
  | .returned | .earlyExit => true
  | .noop | .unknown => false

def Yielded.status : Yielded → CoStatus
  | .returned => .dead
  | _ => .suspended

/-- A call in progress. -/
inductive Frame
  /-- `schedule_task(id)` is being entered. -/
  | call (id : TaskID)
  /-- `schedule_task(id)` inside `coro_resume` of `thread`; `oldCurr` is its
  `old_curr_task_id`. -/
  | body (id : TaskID) (thread : ThreadID) (oldCurr : TaskID)
  /-- `schedule_task(id)` where `coro_resume` of `thread` has returned. -/
  | resumed (id : TaskID) (thread : ThreadID) (oldCurr : TaskID) (y : Yielded)
  /-- `schedule_task` in its wake-up loop: `next` indexes the entry of `pending_wakeup_event`
  that comes next; `taken` is the event of the current entry with what is left of its
  snapshot. -/
  | wakeup (next : Nat) (taken : Option (EventID × List Waiter))
  /-- A `pairs` pass that started on the keys `start`; `ret` is the task whose fired status is
  to be set when its `schedule_task` has returned. -/
  | pass (kind : PassKind) (start visited : Finset TaskID) (ret : Option TaskID)
  deriving DecidableEq

/-- Why a run has ended. -/
inductive Fault
  | assertion (msg : String)
  /-- A Lua runtime error: `nil` indexed, iterated or used as a number. -/
  | nilValue (what : String)
  /-- `coroutine.resume` refused a coroutine of this status. -/
  | resume (status : CoStatus)
  /-- A task body raised. -/
  | raised
  deriving DecidableEq, Repr

/-- What happened, for stating properties of runs. No function of the scheduler reads it. -/
inductive Ev
  | register (e : EventID) (w : Waiter)
  /-- `send_event(e)`, with the waiting list it found. -/
  | send (e : EventID) (waiting : List Waiter)
  /-- The wake-up loop passes `w` of `e` to `schedule_task`. -/
  | wake (e : EventID) (w : Waiter)
  /-- `schedule_task(id)` returns on the removal flag. -/
  | skip (id : TaskID)
  /-- `coro_resume` is called on the thread of `id`, whose body is finished or not. -/
  | resume (id : TaskID) (thread : ThreadID) (finished : Bool)
  /-- The body of `thread`, resumed for `id`, returned or yielded `EarlyExit`. -/
  | finish (id : TaskID) (thread : ThreadID)
  /-- `remove_task(id)`, with whether `id` was in `task_name_map_running`. -/
  | remove (id : TaskID) (running : Bool)
  /-- `remove_task` takes `w` off the waiting list of `e`. -/
  | unwait (e : EventID) (w : Waiter)
  /-- A coroutine is installed for `id`. -/
  | create (id : TaskID) (thread : ThreadID)
  deriving DecidableEq

structure Machine where
  mode : Mode
  sched : Scheduler
  threads : ThreadID → Option Thread
  nextThread : ThreadID
  /-- Calls in progress, innermost first. -/
  stack : List Frame
  /-- The callbacks the simulator still holds. -/
  callbacks : List Callback
  fault : Option Fault
  nextWaitNo : Nat
  /-- How many entries at the front of `pending_wakeup_event` a wake-up loop has taken since
  the table was last cleared. -/
  handled : Nat
  /-- Newest first. -/
  log : List Ev

def Machine.init (mode : Mode) : Machine where
  mode := mode
  sched := Scheduler.init
  threads := fun _ => none
  nextThread := 0
  stack := []
  callbacks := []
  fault := none
  nextWaitNo := 0
  handled := 0
  log := []

/-- The run ends here; nothing else changes. -/
def Machine.fail (m : Machine) (f : Fault) : Machine := { m with fault := some f }

/-- The waiting list of an event, empty where the table has none. -/
def Scheduler.waiting (s : Scheduler) (e : EventID) : List Waiter :=
  (s.eventTaskIdListMap.lookup e).getD []

/-- The sends that no wake-up loop has taken yet. -/
def Machine.unhandled (m : Machine) : List EventID :=
  m.sched.pendingWakeupEvent.drop m.handled

end Verilua
