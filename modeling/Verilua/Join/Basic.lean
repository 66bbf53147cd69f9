import Verilua.Scheduler.Step

/-!
# `jfork`, `join`, `join_any` and `task_group`

The library functions on top of the NORMAL scheduler. A `State` is a machine of the scheduler with
what the body of each task is doing; user code is arbitrary, library code goes on as the source
says. What a step of a body does to the scheduler is a run of the machine.
-/

namespace Verilua.Join

abbrev GroupID := Nat

/-- The field `__type` of an event handle. -/
inductive Kind
  | eventHandle
  | eventHandleForJFork
  deriving DecidableEq, Repr

/-- The locals of a `join` on a list. `left` holds the handles that it still waits for; no code
reads it. -/
structure Waiting where
  ehdlVec : List EventID
  finishedEhdlVec : EventID → Option Bool
  finishedCnt : Nat
  expectFinishedCnt : Nat
  left : List EventID

/-- The code that called `join`. -/
inductive Caller
  | user
  | joinAll (g : GroupID) (drainedUpTo : Nat)

/-- What the body of a task is doing. -/
inductive Ctl
  | user
  /-- An `await_*` function that has registered a one-shot callback with the simulator. -/
  | await
  /-- `ehdl:wait()`, which is also `join` on one handle. -/
  | wait (e : EventID)
  /-- `join` on a list, in its loop. -/
  | join (st : Waiting) (caller : Caller)
  /-- `join_any`; its places on the waiting lists are numbered from `first` on. -/
  | joinAny (ehdlVec : List EventID) (first : Nat)
  /-- `join_all`, at the beginning of a turn of its loop. -/
  | joinAll (g : GroupID) (drainedUpTo : Nat)
  /-- `jfork`, where the new task has been started; `tg:fork` if there is a group. -/
  | jfork (e : EventID) (g : Option GroupID)
  | done

def Caller.ctl : Caller → Ctl
  | .user => .user
  | .joinAll g drainedUpTo => .joinAll g drainedUpTo

structure TaskGroup where
  handles : List EventID
  ownerTaskId : TaskID

/-- A `join_any` that has suspended the task returns `ehdl`. -/
structure AnyJoined where
  id : TaskID
  ehdlVec : List EventID
  first : Nat
  ehdl : EventID
  /-- `curr_wakeup_event_id` where the task was resumed. -/
  curr : Option EventID
  /-- The task is on the waiting list of another one of the handles. -/
  left : Bool
  deriving DecidableEq

/-- What happened, for stating properties of runs. -/
inductive Ev
  /-- The function given to `jfork` returns. -/
  | returned (e : EventID)
  /-- `tg:fork` puts a handle into the group. -/
  | grouped (g : GroupID) (e : EventID)
  | joined (ehdlVec : List EventID)
  | joinedAll (g : GroupID)
  | joinedAny (r : AnyJoined)
  deriving DecidableEq

/-- The tasks, events and groups as the library sees them. `handleOf` is the `ehdl` of the function
that `jfork` wraps around a body. -/
structure Library where
  ctl : TaskID → Option Ctl
  kind : EventID → Option Kind
  handleOf : TaskID → Option EventID
  groups : List TaskGroup

/-- `fault` is an error that `join` or `join_all` raises. -/
structure State extends Library where
  core : Machine
  fault : Option Fault
  log : List Ev

def State.init : State where
  ctl := fun _ => none
  kind := fun _ => none
  handleOf := fun _ => none
  groups := []
  core := .init .normal
  fault := none
  log := []

inductive Act
  /-- `("name"):ehdl()` -/
  | newEvent (name : String)
  | removeEvent (e : EventID)
  | send (e : EventID)
  | wait (e : EventID)
  | await
  /-- The simulator runs a callback. -/
  | fire (n : Nat)
  | fork (name : String) (body : BodyID)
  /-- `jfork`, or `tg:fork` of one task. -/
  | jfork (name : String) (body : BodyID) (g : Option GroupID)
  /-- `task_group`, up to its body; the `joinAll` at the end of the body is a step of its own. -/
  | taskGroup
  | join (e : EventID)
  | joinVec (ehdlVec : List EventID)
  | joinAll (g : GroupID)
  | joinAny (ehdlVec : List EventID)
  /-- `tg:join_any` -/
  | joinAnyGroup (g : GroupID)
  /-- Library code goes on. -/
  | cont
  /-- The body returns, or ends early. -/
  | ret
  | exit
  /-- A move of the wake-up loop; a task that it passes to `schedule_task` is resumed. -/
  | loop
  deriving DecidableEq

/-- Steps of the scheduler, up to an error. -/
def exec (m : Machine) : List Verilua.Act → Option Machine
  | [] => some m
  | a :: as => if m.fault.isSome then some m else (m.step a).bind fun m' => exec m' as

/-- `table.remove(event_task_id_list_map[e], i)` for the last `i` with the entry `id`. -/
def dropWaiter (id : TaskID) (m : Machine) (e : EventID) : Machine :=
  match m.sched.eventTaskIdListMap.lookup e with
  | none => m
  | some l =>
    match l.reverse.find? fun w => w.taskId = id with
    | none => m
    | some w => { m with
        sched := { m.sched with
          eventTaskIdListMap := m.sched.eventTaskIdListMap.insert e
            (l.reverse.eraseP fun w => w.taskId = id).reverse }
        log := .unwait e w :: m.log }

/-- The task is suspended until `e` wakes it. -/
def Ctl.awaits (e : EventID) : Ctl → Bool
  | .wait e' => decide (e' = e)
  | .join st _ => decide (e ∈ st.left)
  | .joinAny ehdlVec _ => decide (e ∈ ehdlVec)
  | _ => false

def Library.awaits (l : Library) (id : TaskID) (e : EventID) : Bool :=
  (l.ctl id).any (Ctl.awaits e)

namespace State

def setCtl (s : State) (id : TaskID) (ctl : Ctl) : State :=
  { s with ctl := Function.update s.ctl id (some ctl) }

def raise (s : State) (msg : String) : State := { s with fault := some (.assertion msg) }

/-! ### `join` -/

/-- `scheduler.event_name_map[ehdl.event_id]` is set. -/
def unfinished (s : State) (e : EventID) : Bool := (s.core.sched.eventNameMap e).isSome

/-- `join` on one handle. -/
def joinOne (s : State) (id : TaskID) (e : EventID) : Option State :=
  if s.unfinished e then
    (exec s.core [.wait e, .yielded]).map fun core =>
      setCtl { s with core := core, fault := core.fault } id (.wait e)
  else some { s with log := .joined [e] :: s.log }

/-- `join` on a list, up to its loop. An entry of another kind ends the run, so that the entries
before it need not be put on their lists. -/
def joinVec (s : State) (id : TaskID) (ehdlVec : List EventID) (caller : Caller) : Option State :=
  if ehdlVec.all fun e => decide (s.kind e = some .eventHandleForJFork) then
    (exec s.core (ehdlVec.map .insertWaiter)).map fun core =>
      setCtl { s with core := core, fault := core.fault } id (.join {
        ehdlVec := ehdlVec
        finishedEhdlVec := fun e => if e ∈ ehdlVec then some false else none
        finishedCnt := 0
        expectFinishedCnt := ehdlVec.length - ehdlVec.countP fun e => !s.unfinished e
        left := ehdlVec.filter s.unfinished } caller)
  else some (s.raise "`join` only supports EventHandle created by `jfork`, got ")

/-- One turn of the loop of `join`, up to `await_noop`. -/
def joinLoop (s : State) (id : TaskID) (st : Waiting) (caller : Caller) : Option State :=
  if st.finishedCnt = st.expectFinishedCnt then
    some (setCtl { s with log := .joined st.ehdlVec :: s.log } id caller.ctl)
  else (exec s.core [.yield .noop, .yielded]).map fun core => { s with core := core }

/-- The rest of the turn, when the task has been resumed. -/
def joinResumed (s : State) (id : TaskID) (st : Waiting) (caller : Caller) : State :=
  match s.core.sched.currWakeupEventId with
  | none => s.raise "assertion failed!"
  | some e =>
    if st.finishedEhdlVec e = some true then s.raise "assertion failed!"
    else s.setCtl id (.join { st with
      finishedEhdlVec := Function.update st.finishedEhdlVec e (some true)
      finishedCnt := st.finishedCnt + 1
      left := st.left.erase e } caller)

/-! ### `join_any` -/

/-- `join_any`, up to `await_noop` or the `wait` on a single handle. A handle that is finished is
returned at once. -/
def joinAny (s : State) (id : TaskID) (ehdlVec : List EventID) : Option State :=
  if ehdlVec = [] then some (s.raise "`join_any` requires a non-empty table of EventHandles")
  else if ehdlVec.all fun e => decide (s.kind e = some .eventHandleForJFork) then
    if ehdlVec.all s.unfinished then
      let as := match ehdlVec with
        | [e] => [.wait e, .yielded]
        | _ => ehdlVec.map .insertWaiter ++ [.yield .noop, .yielded]
      (exec s.core as).map fun core =>
        setCtl { s with core := core, fault := core.fault } id (.joinAny ehdlVec s.core.nextWaitNo)
    else some s
  else some (s.raise "`join_any` only supports EventHandle created by `jfork`, got ")

/-- The task has left the lists of the other handles and `e` is returned. -/
def anyJoined (s : State) (id : TaskID) (ehdlVec : List EventID) (first : Nat) (e : EventID) :
    State :=
  let core := (ehdlVec.filter fun e' => decide (e' ≠ e)).foldl (dropWaiter id) s.core
  setCtl { s with
    core := core
    log := .joinedAny {
      id := id
      ehdlVec := ehdlVec
      first := first
      ehdl := e
      curr := s.core.sched.currWakeupEventId
      left := (ehdlVec.filter fun e' => decide (e' ≠ e)).any fun e' =>
        (core.sched.waiting e').any fun w => w.taskId = id } :: s.log } id .user

/-- The rest of `join_any`, when the task has been resumed. -/
def joinAnyResumed (s : State) (id : TaskID) (ehdlVec : List EventID) (first : Nat) : State :=
  match ehdlVec with
  | [e] => s.anyJoined id [e] first e
  | _ =>
    match s.core.sched.currWakeupEventId with
    | none => s.raise "assertion failed!"
    | some e =>
      if e ∈ ehdlVec then s.anyJoined id ehdlVec first e
      else raise { s with core := ehdlVec.foldl (dropWaiter id) s.core }
        "`join_any` internal error: fired event not found in handle list"

/-! ### Task groups -/

/-- One turn of the loop of `join_all`. -/
def joinAllLoop (s : State) (id : TaskID) (g : GroupID) (drainedUpTo : Nat) : Option State :=
  match s.groups[g]? with
  | none => none
  | some tg =>
    let n := tg.handles.length
    if n = drainedUpTo then
      some (setCtl { s with log := .joinedAll g :: s.log } id .user)
    else
      let pending := (tg.handles.drop drainedUpTo).filter s.unfinished
      if pending = [] then some (s.setCtl id (.joinAll g n)) else s.joinVec id pending (.joinAll g n)

/-- `assert_join_from_owner` and the beginning of `join_all`. -/
def joinAll (s : State) (id : TaskID) (g : GroupID) : Option State :=
  match s.groups[g]? with
  | none => none
  | some tg =>
    if tg.ownerTaskId = s.core.sched.currTaskId then some (s.setCtl id (.joinAll g 0))
    else some (s.raise "task_group: join_all() can only be called by the task_group owner task; child tasks should use a new inner task_group for local synchronization")

/-- `tg:join_any` -/
def joinAnyGroup (s : State) (id : TaskID) (g : GroupID) : Option State :=
  match s.groups[g]? with
  | none => none
  | some tg =>
    if tg.ownerTaskId = s.core.sched.currTaskId then
      let pending := tg.handles.filter s.unfinished
      if pending = [] then some s else s.joinAny id pending
    else some (s.raise "task_group: join_any() can only be called by the task_group owner task; child tasks should use a new inner task_group for local synchronization")

/-- The end of `tg:fork`, behind its `jfork`. -/
def addHandle (s : State) (e : EventID) : Option GroupID → State
  | none => s
  | some g => { s with
      groups := s.groups.modify g fun tg => { tg with handles := tg.handles ++ [e] }
      log := .grouped g e :: s.log }

/-! ### Tasks -/

/-- `schedule_task` has resumed the task. -/
def resumed (s : State) (id : TaskID) : State :=
  match s.ctl id with
  | some (.join st caller) => s.joinResumed id st caller
  | some (.joinAny ehdlVec first) => s.joinAnyResumed id ehdlVec first
  | some (.wait e) =>
    if s.kind e = some .eventHandleForJFork then
      setCtl { s with log := .joined [e] :: s.log } id .user
    else s.setCtl id .user
  | _ => s.setCtl id .user

/-- The steps of the scheduler end in resuming the task, if they do not end in an error. -/
def resume (s : State) (id : TaskID) (as : List Verilua.Act) : Option State :=
  (exec s.core as).map fun core =>
    if core.fault.isSome then { s with core := core } else { s with core := core }.resumed id

/-- The body is suspended. -/
def suspend (s : State) (id : TaskID) (ctl : Ctl) (as : List Verilua.Act) : Option State :=
  (exec s.core (as ++ [.yielded])).map fun core => setCtl { s with core := core } id ctl

/-- `append_task(nil, name, body, true)` -/
def fork (s : State) (name : String) (body : BodyID) : Option State :=
  let as := [.appendTask none name body true, .enter]
  match s.core.sched.allocTaskId with
  | none => (exec s.core as).map fun core => { s with core := core }
  | some (id, _) => (exec s.core as).map fun core => setCtl { s with core := core } id .user

/-- `jfork`, up to where the new task has been started. -/
def jfork (s : State) (id : TaskID) (name : String) (body : BodyID) (g : Option GroupID) :
    Option State :=
  let as := [.newEventHdl (name ++ "__jfork_ehdl") none, .appendTask none name body true, .enter]
  match s.core.sched.allocEventId, s.core.sched.allocTaskId with
  | some (e, _), some (child, _) => (exec s.core as).map fun core =>
      setCtl (setCtl { s with
        core := core
        kind := Function.update s.kind e (some .eventHandleForJFork)
        handleOf := Function.update s.handleOf child (some e) } id (.jfork e g)) child .user
  | _, _ => (exec s.core as).map fun core => { s with core := core }

/-- The end of a body: what `jfork` has wrapped around it, and the return. -/
def ret (s : State) (id : TaskID) : Option State :=
  match s.handleOf id with
  | none => s.suspend id .done [.yield .returned]
  | some e =>
    let sends := if s.core.sched.waiting e = [] then [] else [.send e]
    suspend { s with log := .returned e :: s.log } id .done
      (sends ++ [.removeEvent e, .yield .returned])

/-! ### Steps -/

/-- An action of user code inside or outside of a task. -/
def codeStep (s : State) : Act → Option State
  | .newEvent name =>
    (exec s.core [.newEventHdl name none]).map fun core => { s with
      core := core
      kind :=
        match s.core.sched.allocEventId with
        | some (e, _) => Function.update s.kind e (some .eventHandle)
        | none => s.kind }
  | .removeEvent e => (exec s.core [.removeEvent e]).map fun core => { s with core := core }
  | .send e => (exec s.core [.send e]).map fun core => { s with core := core }
  | .fire n =>
    match s.core.callbacks[n]? with
    | some cb => s.resume cb.taskId [.fire n, .enter]
    | none => none
  | .fork name body => s.fork name body
  | _ => none

/-- An action of the user code of a task. -/
def userStep (s : State) (id : TaskID) : Act → Option State
  | .wait e => s.suspend id (.wait e) [.wait e]
  | .await => s.suspend id .await [.awaitCallback false]
  | .jfork name body g =>
    if g.all fun g => decide (g < s.groups.length) then s.jfork id name body g else none
  | .taskGroup => some { s with groups := s.groups ++ [⟨[], s.core.sched.currTaskId⟩] }
  | .join e => s.joinOne id e
  | .joinVec ehdlVec => s.joinVec id ehdlVec .user
  | .joinAll g => s.joinAll id g
  | .joinAny ehdlVec => s.joinAny id ehdlVec
  | .joinAnyGroup g => s.joinAnyGroup id g
  | .ret => s.ret id
  | .exit => s.suspend id .done [.yield .earlyExit]
  | a => s.codeStep a

/-- Library code of a task goes on. -/
def contStep (s : State) (id : TaskID) : Ctl → Option State
  | .jfork e g => some ((s.addHandle e g).setCtl id .user)
  | .join st caller => s.joinLoop id st caller
  | .joinAll g drainedUpTo => s.joinAllLoop id g drainedUpTo
  | _ => none

def step (s : State) (a : Act) : Option State :=
  if s.core.fault.isSome || s.fault.isSome then none
  else
    match s.core.stack with
    | [] => s.codeStep a
    | .wakeup _ (some (_, w :: _)) :: _ =>
      if a = .loop then s.resume w.taskId [.loop, .enter] else none
    | .wakeup _ _ :: _ =>
      if a = .loop then (exec s.core [.loop]).map fun core => { s with core := core } else none
    | .body id _ _ :: _ =>
      match s.ctl id with
      | some .user => s.userStep id a
      | some ctl => if a = .cont then s.contStep id ctl else none
      | none => none
    | _ => none

/-! ### Conditions on runs -/

/-- The handles of `jfork` are used in `join` and `join_any` only, which are given distinct ones, and
the functions of a group that join are called by its owner. -/
def proper (s : State) : Act → Bool
  | .removeEvent e | .send e | .wait e => decide (s.kind e = some .eventHandle)
  | .join e => decide (s.kind e = some .eventHandleForJFork)
  | .joinVec ehdlVec => decide ehdlVec.Nodup &&
      ehdlVec.all fun e => decide (s.kind e = some .eventHandleForJFork)
  | .joinAny ehdlVec => decide (ehdlVec ≠ []) && decide ehdlVec.Nodup &&
      ehdlVec.all fun e => decide (s.kind e = some .eventHandleForJFork)
  | .joinAll g | .joinAnyGroup g =>
    (s.groups[g]?).all fun tg => decide (tg.ownerTaskId = s.core.sched.currTaskId)
  | _ => true

/-- The wake-up loop has taken the list of an event with `id` on it and has not passed it on. -/
def holds (id : TaskID) : Frame → Bool
  | .wakeup _ (some (_, ws)) => ws.any fun w => w.taskId = id
  | _ => false

/-- When a wake-up loop passes a task in a `join` on a list or in a `join_any` to `schedule_task`,
`curr_wakeup_event_id` is still the event it took the task for, and a task in a `join_any` is in
nothing else that a wake-up loop has taken; and when a wake-up loop takes the list of a handle of
`jfork`, the tasks on the list wait for that handle. -/
def wakesJoiners (s : State) : Act → Bool
  | .loop =>
    match s.core.stack with
    | .wakeup _ (some (e, w :: ws)) :: rest =>
      match s.ctl w.taskId with
      | some (.join _ _) => decide (s.core.sched.currWakeupEventId = some e)
      | some (.joinAny _ _) => decide (s.core.sched.currWakeupEventId = some e) &&
          !(ws.any fun w' => w'.taskId = w.taskId) && !rest.any (holds w.taskId)
      | _ => true
    | .wakeup next none :: _ => (s.core.sched.pendingWakeupEvent[next]?).all fun e =>
        decide (s.kind e = some .eventHandleForJFork →
          ∀ w ∈ s.core.sched.waiting e, s.awaits w.taskId e = true)
    | _ => true
  | _ => true

end State

end Verilua.Join
