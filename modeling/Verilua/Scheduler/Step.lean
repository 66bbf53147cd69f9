import Verilua.Scheduler.Ops
import Verilua.Lib.TransitionSystem

/-!
# Runs of the scheduler

A step is either a move of the scheduler's own code, which the top of the stack determines, or
an action of the code that runs there: a task body, or the code outside every task where the
stack is empty. Bodies are arbitrary, so every operation is possible at every such point, and
the simulator may run any callback it holds.
-/

namespace Verilua

open TransitionSystem

inductive Act
  /-- `sim_event`: the simulator runs the `n`-th callback it holds. -/
  | fire (n : Nat)
  /-- `schedule_all_tasks`, `schedule_posedge_tasks` or `schedule_negedge_tasks`. -/
  | startPass (kind : PassKind)
  | pick (id : TaskID)
  | passReturn
  | endPass
  | enter
  | yielded
  | loop
  | newEventHdl (name : String) (userEventId : Option EventID)
  | removeEvent (e : EventID)
  | send (e : EventID)
  | appendTask (id : Option TaskID) (name : String) (body : BodyID) (startNow : Bool)
  | wakeupTask (id : TaskID)
  | tryWakeupTask (id : TaskID)
  | removeTask (id : TaskID)
  | wait (e : EventID)
  | insertWaiter (e : EventID)
  /-- An `await_*` function that registers a callback with the simulator. -/
  | awaitCallback (always : Bool)
  | awaitPosedge
  | awaitNegedge
  | yield (y : Yielded)
  | raise
  deriving DecidableEq

/-! ### Passes over the tasks -/

/-- The keys of the table that a pass walks. -/
def Scheduler.passKeys (s : Scheduler) : PassKind → Finset TaskID
  | .all => s.taskNameMapRunning.keys
  | .posedge => s.posedgeTasks
  | .negedge => s.negedgeTasks

/-- The beginning of `schedule_all_tasks`, `schedule_posedge_tasks`, `schedule_negedge_tasks`. -/
def Machine.startPass (m : Machine) (kind : PassKind) : Machine :=
  match kind with
  | .all => { m with stack := .pass .all (m.sched.passKeys .all) ∅ none :: m.stack }
  | .posedge =>
    if m.mode = .edgeStep then
      { m with stack := .pass .posedge (m.sched.passKeys .posedge) ∅ none :: m.stack }
    else m.fail (.assertion
      "[Scheduler] schedule_posedge_tasks() is only available in EDGE_STEP mode!")
  | .negedge =>
    if m.mode = .edgeStep then
      { m with stack := .pass .negedge (m.sched.passKeys .negedge) ∅ none :: m.stack }
    else m.fail (.assertion
      "[Scheduler] schedule_negedge_tasks() is only available in EDGE_STEP mode!")

/-- One iteration of a pass. `pairs` gives the keys in any order; a key that is removed before it
is reached is passed over, one that is added may or may not be visited. -/
def Machine.passStep (m : Machine) (kind : PassKind) (start visited : Finset TaskID)
    (ret : Option TaskID) (rest : List Frame) : Act → Option Machine
  | .pick id =>
    if ret = none ∧ id ∈ m.sched.passKeys kind ∧ id ∉ visited then
      if kind = .all ∧ m.mode = .normal then
        if m.sched.taskFiredStatusMap id then
          some { m with stack := .pass kind start (insert id visited) none :: rest }
        else some { m with
          stack := .call id :: .pass kind start (insert id visited) (some id) :: rest }
      else some { m with stack := .call id :: .pass kind start (insert id visited) none :: rest }
    else none
  | .passReturn =>
    match ret with
    | some id => some { m with
        sched := { m.sched with
          taskFiredStatusMap := Function.update m.sched.taskFiredStatusMap id true }
        stack := .pass kind start visited none :: rest }
    | none => none
  | .endPass =>
    if ret = none ∧ start ∩ m.sched.passKeys kind ⊆ visited then some { m with stack := rest }
    else none
  | _ => none

/-! ### Code inside and outside of tasks -/

/-- An action of code at any point. -/
def Machine.codeStep (m : Machine) : Act → Option Machine
  | .fire n =>
    match m.callbacks[n]? with
    | some cb => some (Machine.call { m with
        callbacks := if cb.always then m.callbacks else m.callbacks.eraseIdx n } cb.taskId)
    | none => none
  | .newEventHdl name userEventId => some (m.newEventHdl name userEventId)
  | .removeEvent e => some (m.removeEvent e)
  | .send e => some (m.sendEvent e)
  | .appendTask id name body startNow => some (m.appendTask id name body startNow)
  | .wakeupTask id => some (m.wakeupTask id)
  | .tryWakeupTask id => some (m.tryWakeupTask id)
  | .removeTask id => some (m.removeTask id)
  | _ => none

/-- `coro_yield`, or the end of the body. -/
def Machine.coroYield (m : Machine) (id : TaskID) (th : ThreadID) (oldCurr : TaskID)
    (rest : List Frame) (y : Yielded) : Machine := { m with
  threads := Function.update m.threads th ((m.threads th).map fun t =>
    { t with status := y.status, finished := t.finished || y.finishes })
  stack := .resumed id th oldCurr y :: rest }

/-- An action of the body of `th`, resumed for `id`. -/
def Machine.bodyStep (m : Machine) (id : TaskID) (th : ThreadID) (oldCurr : TaskID)
    (rest : List Frame) : Act → Option Machine
  | .wait e =>
    let m' := m.registerEvent e m.sched.currTaskId
    some (if m'.fault.isSome then m' else m'.coroYield id th oldCurr rest .noop)
  | .insertWaiter e => some (m.insertWaiter e m.sched.currTaskId)
  | .awaitCallback always =>
    if m.mode = .normal then
      some (Machine.coroYield { m with
        callbacks := m.callbacks ++ [⟨m.sched.currTaskId, always, th⟩] } id th oldCurr rest .noop)
    else none
  | .awaitPosedge =>
    if m.mode = .edgeStep then some { m with
      sched := { m.sched with posedgeTasks := insert m.sched.currTaskId m.sched.posedgeTasks } }
    else none
  | .awaitNegedge =>
    if m.mode = .edgeStep then some { m with
      sched := { m.sched with negedgeTasks := insert m.sched.currTaskId m.sched.negedgeTasks } }
    else none
  | .yield y => some (m.coroYield id th oldCurr rest y)
  | .raise => some (m.fail .raised)
  | a => m.codeStep a

def Machine.step (m : Machine) (a : Act) : Option Machine :=
  if m.fault.isSome then none
  else
    match m.stack, a with
    | .call id :: rest, .enter => some (m.scheduleTask id rest)
    | .resumed id th oldCurr y :: rest, .yielded => some (m.taskYielded id th oldCurr y rest)
    | .wakeup next taken :: rest, .loop => some (m.wakeupLoop next taken rest)
    | .pass kind start visited ret :: rest, a => m.passStep kind start visited ret rest a
    | .body id th oldCurr :: rest, a => m.bodyStep id th oldCurr rest a
    | [], .startPass kind => some (m.startPass kind)
    | [], a => m.codeStep a
    | _, _ => none

/-- The states that a run from `Machine.init mode` reaches by steps that satisfy `ok`. -/
abbrev Machine.Reached (mode : Mode) (ok : Machine → Act → Prop) : Machine → Prop :=
  Reach Machine.step ok (Machine.init mode)

end Verilua
