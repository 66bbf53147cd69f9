import Verilua.Queues.Basic
import Verilua.Scheduler.Asks

/-!
# `push_waitable` and `pop_waitable`

Any number of tasks of the NORMAL scheduler on one queue. A `State` is a machine of the scheduler
with the queue, and with what each coroutine is doing in the two methods. What a task does outside
them is arbitrary; the event handle is a private field of the queue, so that no other code uses it.
-/

namespace Verilua.Queues

open Fifo TransitionSystem

/-- What a coroutine is doing. -/
inductive Ctl
  | user
  /-- `push_waitable`, where `push` has returned 0. -/
  | pushWaitable
  /-- `pop_waitable`, in `self.ehdl:wait()`. -/
  | popWaitable
  deriving DecidableEq, Repr

/-- What the two methods return, for stating properties of runs. -/
inductive Ev (V : Type*)
  /-- `push_waitable(value)` of a task has stored the value. -/
  | pushed (id : TaskID) (value : V)
  /-- `push_waitable(value)` returns 1. -/
  | refused (id : TaskID) (value : V)
  /-- `pop_waitable()` returns the value. -/
  | popped (id : TaskID) (value : V)
  deriving DecidableEq

structure State (Q V : Type*) where
  core : Machine
  queue : Q
  /-- `self.ehdl` -/
  ehdl : EventID
  ctl : ThreadID → Ctl
  /-- Newest first. -/
  log : List (Ev V)

inductive Act (V : Type*)
  /-- A step of the scheduler, or of code outside the two methods. -/
  | core (a : Verilua.Act)
  | pushWaitable (value : V)
  /-- `push_waitable` goes on: `self.ehdl:send()`. -/
  | send
  /-- `pop_waitable` is called, or goes on: one test of its loop. -/
  | popWaitable
  deriving DecidableEq

/-- The action uses the event handle `e`. -/
def uses (e : EventID) : Verilua.Act → Bool
  | .send e' | .wait e' | .insertWaiter e' | .removeEvent e' => decide (e' = e)
  | .newEventHdl _ (some e') => decide (e' = e)
  | _ => false

namespace State

variable {Q V : Type*}

/-- `_init`, called by any code: the handle is the event that `new_event_hdl` allocates. -/
def create (m : Machine) (queue : Q) (name : String) : Option (State Q V) :=
  match m.sched.allocEventId with
  | none => none
  | some (e, _) => (m.step (.newEventHdl name none)).map fun core =>
      { core := core, queue := queue, ehdl := e, ctl := fun _ => .user, log := [] }

def setCtl (s : State Q V) (th : ThreadID) (ctl : Ctl) : State Q V :=
  { s with ctl := Function.update s.ctl th ctl }

@[simp] lemma setCtl_ctl (s : State Q V) (th : ThreadID) (ctl : Ctl) :
    (s.setCtl th ctl).ctl th = ctl := Function.update_self ..

lemma setCtl_ctl_of_ne (s : State Q V) {th th' : ThreadID} (h : th' ≠ th) (ctl : Ctl) :
    (s.setCtl th ctl).ctl th' = s.ctl th' := Function.update_of_ne h ..

/-- Code outside the two methods runs, or the scheduler's own. -/
def outside (s : State Q V) : Bool :=
  match s.core.stack with
  | .body _ th _ :: _ => decide (s.ctl th = .user)
  | _ => true

/-- `push_waitable`, up to the test of `ret`. -/
def pushWaitable (c : Methods Q V) (s : State Q V) (id : TaskID) (th : ThreadID) (value : V) :
    State Q V :=
  match c.push s.queue value with
  | none => { s with log := .refused id value :: s.log }
  | some queue =>
    setCtl { s with queue := queue, log := .pushed id value :: s.log } th .pushWaitable

/-- One test of `while self:is_empty()`, and what follows it. -/
def popWaitable (c : Methods Q V) (s : State Q V) (id : TaskID) (th : ThreadID) :
    Option (State Q V) :=
  if c.isEmpty s.queue then
    (s.core.step (.wait s.ehdl)).map fun core => setCtl { s with core := core } th .popWaitable
  else
    match c.pop s.queue with
    | none => some { s with core := s.core.fail (.assertion "queue is empty") }
    | some (value, queue) =>
      some (setCtl { s with queue := queue, log := .popped id value :: s.log } th .user)

def step (c : Methods Q V) (s : State Q V) : Act V → Option (State Q V)
  | .core a =>
    if s.outside && !uses s.ehdl a then (s.core.step a).map fun core => { s with core := core }
    else none
  | .pushWaitable value =>
    match s.core.fault, s.core.stack with
    | none, .body id th _ :: _ =>
      if s.ctl th = .user then some (s.pushWaitable c id th value) else none
    | _, _ => none
  | .send =>
    match s.core.stack with
    | .body _ th _ :: _ =>
      if s.ctl th = .pushWaitable then
        (s.core.step (.send s.ehdl)).map fun core => setCtl { s with core := core } th .user
      else none
    | _ => none
  | .popWaitable =>
    match s.core.fault, s.core.stack with
    | none, .body id th _ :: _ =>
      if s.ctl th = .pushWaitable then none else s.popWaitable c id th
    | _, _ => none

/-- The values that `push_waitable` has stored, oldest first. -/
def pushed (s : State Q V) : List V :=
  (s.log.filterMap fun
    | .pushed _ v => some v
    | _ => none).reverse

/-- The values that `pop_waitable` has returned, oldest first. -/
def popped (s : State Q V) : List V :=
  (s.log.filterMap fun
    | .popped _ v => some v
    | _ => none).reverse

/-- The states of runs that begin where a queue is created, in any run of the scheduler. -/
def Reached (c : Methods Q V) (queue : Q) (s : State Q V) : Prop :=
  ∃ m name s₀, Machine.Reached .normal Unguarded m ∧ create m queue name = some s₀ ∧
    Reach (step c) Unguarded s₀ s

end State

end Verilua.Queues

/-!
### Where a waiting task is

What one step of the scheduler does to a task that waits for an event: the task stays on the list of
the event, or a call in progress leads to its coroutine. And what it does to the sends that no loop
has taken yet: they stay while tasks wait for them, as long as some `schedule_task` has resumed a
coroutine.
-/

namespace Verilua

open TransitionSystem

variable {m m' : Machine} {a : Act} {mode : Mode} {ok : Machine → Act → Prop} {id : TaskID}
  {th : ThreadID} {e : EventID}

/-! ### Calls that will come to a wake-up loop -/

/-- `schedule_task` behind `coro_resume`. -/
def Frame.busy : Frame → Bool
  | .body .. | .resumed .. | .wakeup .. => true
  | .call _ | .pass .. => false

def Machine.Busy (m : Machine) : Prop := ∃ f ∈ m.stack, f.busy = true

lemma Machine.Busy.of_cons {f : Frame} {rest : List Frame} (hs : m.stack = f :: rest)
    (hf : f.busy = true) : m.Busy := ⟨f, hs ▸ List.mem_cons_self, hf⟩

lemma Machine.Busy.inSchedule (h : m.Busy) : m.inSchedule = true := by
  obtain ⟨f, hmem, hf⟩ := h
  refine List.any_eq_true.mpr ⟨f, hmem, ?_⟩
  cases f with
  | body | resumed | wakeup | call => rfl
  | pass => cases hf

lemma Machine.loops_of_not_busy {stack : List Frame} (h : ¬ ∃ f ∈ stack, f.busy = true) :
    stack.filterMap Frame.loop? = [] := by
  refine List.filterMap_eq_nil_iff.mpr fun f hf => ?_
  cases f with
  | wakeup => exact absurd ⟨_, hf, rfl⟩ h
  | call | body | resumed | pass => rfl

/-- The calls that have resumed a coroutine are left with the flag down, and the last of them with
no loop in progress. -/
lemma Rule.busy (hr : Rule m a m') (hd : FlagDown m) (hf : m'.fault = none) (h : m.Busy) :
    m'.Busy ∨ m'.bus.flag = false ∧ m'.bus.loops = [] := by
  obtain ⟨f, hmem, hbusy⟩ := h
  -- a frame that is not at the top stays
  have htail : ∀ {g : Frame} {rest : List Frame}, m.stack = g :: rest → g.busy = false →
      f ∈ rest := by
    intro g rest hs hg
    rw [hs] at hmem
    rcases List.mem_cons.mp hmem with rfl | hmem
    · exact absurd (hbusy.symm.trans hg) (by simp)
    · exact hmem
  cases hr with
  | fault hf' | removeFault _ hf' | resumeFault _ _ _ _ _ _ _ _ _ hf' => simp [hf] at hf'
  | skip _ _ hs => exact .inl ⟨f, htail hs rfl, hbusy⟩
  | resume | yieldedLoop | wait | awaitCallback | yield =>
    exact .inl ⟨_, List.mem_cons_self, rfl⟩
  | yieldedReturn id th oldCurr y rest hs hy hflag =>
    by_cases hrest : ∃ f ∈ rest, f.busy = true
    · exact .inl hrest
    · exact .inr ⟨(hasWakeupEvent_congr (settle_eventTables ..)).trans hflag,
        Machine.loops_of_not_busy hrest⟩
  | loopWake => exact .inl ⟨_, List.mem_cons_of_mem _ List.mem_cons_self, rfl⟩
  | loopNext | loopTake => exact .inl ⟨_, List.mem_cons_self, rfl⟩
  | loopClose next rest hs he =>
    by_cases hrest : ∃ f ∈ rest, f.busy = true
    · exact .inl hrest
    · exact .inr ⟨hd (by rw [hs]; trivial), Machine.loops_of_not_busy hrest⟩
  | startPass kind hs =>
    rw [hs] at hmem
    cases hmem
  | pickFired _ _ _ _ _ hs | passReturn _ _ _ _ _ hs =>
    exact .inl ⟨f, List.mem_cons_of_mem _ (htail hs rfl), hbusy⟩
  | pick _ _ _ _ _ _ hs =>
    exact .inl ⟨f, List.mem_cons_of_mem _ (List.mem_cons_of_mem _ (htail hs rfl)), hbusy⟩
  | endPass _ _ _ _ hs => exact .inl ⟨f, htail hs rfl, hbusy⟩
  | fire | restart => exact .inl ⟨f, List.mem_cons_of_mem _ hmem, hbusy⟩
  | append user id name body startNow s hs hc =>
    rcases startTask_stack (Machine.installTask { m with sched := s } id name body)
      id startNow with heq | heq
    · exact .inl ⟨f, by rw [heq]; exact hmem, hbusy⟩
    · exact .inl ⟨f, by rw [heq]; exact List.mem_cons_of_mem _ hmem, hbusy⟩
  | newEventHdl | removeEvent | send | tryRunning | remove | removeWaiting | insertWaiter
  | awaitPosedge | awaitNegedge => exact .inl ⟨f, hmem, hbusy⟩

/-! ### Sends and waiting lists -/

lemma behind_of_reached (h : Machine.Reached mode ok m) (hf : m.fault = none) :
    EventBus.Behind m.bus := by
  obtain ⟨b, hb, -, heq⟩ := bus_of_reached (G := fun _ _ => True)
    (fun _ _ _ _ _ _ _ => trivial) h
  rw [heq hf]
  exact EventBus.behind_of_reach hb

/-- A step that registers nobody on `e` makes its list no longer, and leaves a send of `e` unhandled
while somebody waits. -/
lemma Rule.waiting_unhandled (hr : Rule m a m') (hb : EventBus.Behind m.bus) (hd : FlagDown m)
    (hf : m'.fault = none) (hwait : a ≠ .wait e) (hinsert : a ≠ .insertWaiter e) :
    (∀ w ∈ m'.bus.waiting e, w ∈ m.bus.waiting e) ∧
      (e ∈ m.bus.unhandled → m'.bus.waiting e ≠ [] → e ∈ m'.bus.unhandled) := by
  rcases hr.refines hd hf with hsame | ⟨b, hact, hstep⟩
  · rw [hsame]
    exact ⟨fun _ hw => hw, fun hu _ => hu⟩
  · have hrule := EventBus.Rule.of_step hstep
    refine ⟨fun w hw => hrule.mem_waiting ?_ hw, fun hu hw => hb.mem_unhandled hrule hu hw⟩
    cases hact with
    | wait e' | insertWaiter e' =>
      rintro ⟨⟩
      contradiction
    | send | removeTask | newEventHdl | yielded | loop => simp

/-- Only `remove` of a handle takes its event out of the table. -/
lemma Rule.eventNameMap_ne_none (hr : Rule m a m') (hf : m'.fault = none) (ha : a ≠ .removeEvent e)
    (h : m.sched.eventNameMap e ≠ none) : m'.sched.eventNameMap e ≠ none := by
  have hsame : m'.sched.eventTables = m.sched.eventTables → m'.sched.eventNameMap e ≠ none := by
    intro ht
    have hnames : m'.sched.eventNameMap = m.sched.eventNameMap :=
      congrArg EventTables.eventNameMap ht
    rwa [hnames]
  cases hr with
  | fault hf' | removeFault _ hf' | resumeFault _ _ _ _ _ _ _ _ _ hf' => simp [hf] at hf'
  | skip id => exact hsame (keeps_skip m.sched id).eventTables
  | resume => exact hsame (keeps_drainPendingRemoval m.sched).eventTables
  | yieldedLoop id th oldCurr y | yieldedReturn id th oldCurr y =>
    have ht : (m.sched.settle m.mode id oldCurr y).eventNameMap = m.sched.eventNameMap :=
      congrArg EventTables.eventNameMap (settle_eventTables ..)
    rwa [← ht] at h
  | append user id name body startNow s hs hc =>
    have ht : ((Machine.installTask { m with sched := s } id name body).startTask
        id startNow).sched.eventNameMap = s.eventNameMap := by
      have hk := congrArg EventTables.eventNameMap (keeps_clearUserRemoval s id).eventTables
      unfold Machine.startTask
      split_ifs <;> exact hk
    rw [ht]
    have hs' : s.eventNameMap = m.sched.eventNameMap :=
      congrArg EventTables.eventNameMap hc.eventTables
    rwa [hs']
  | restart _ id name body s hs hc => exact hsame hc.keeps.eventTables
  | newEventHdl name user e' s hs hc =>
    have hs' : s.eventNameMap = m.sched.eventNameMap := by
      cases hc with
      | given => rfl
      | fresh _ _ h => rw [(Scheduler.allocEventId_eq_some h).2.2.2]
    simp only [Scheduler.installEvent, hs']
    by_cases heq : e = e'
    · subst heq
      simp
    · rwa [Function.update_of_ne heq]
  | removeEvent e' =>
    have hne : e ≠ e' := by
      rintro rfl
      exact ha rfl
    simpa [Machine.removeEvent, Function.update_of_ne hne] using h
  | remove id | removeWaiting id =>
    have ht : (m.sched.flagUserRemoval id).eventNameMap = m.sched.eventNameMap :=
      congrArg EventTables.eventNameMap (keeps_flagUserRemoval ..).eventTables
    rwa [← ht] at h
  | _ => exact h

/-! ### Removal -/

/-- `remove_task(id)` was called, and no coroutine was installed for `id` since. -/
def removeCalled (id : TaskID) : List Ev → Bool
  | [] => false
  | .create id' _ :: log => decide (id' ≠ id) && removeCalled id log
  | .remove id' _ :: log => decide (id' = id) || removeCalled id log
  | _ :: log => removeCalled id log

lemma removeCalled_of_removedSince {log : List Ev} (h : removedSince id log = true) :
    removeCalled id log = true := by
  induction log with
  | nil => cases h
  | cons x log ih =>
    cases x with
    | create id' th' =>
      simp only [removedSince, removeCalled, Bool.and_eq_true] at h ⊢
      exact ⟨h.1, ih h.2⟩
    | remove id' running =>
      simp only [removedSince, removeCalled, Bool.or_eq_true, Bool.and_eq_true] at h ⊢
      exact h.imp And.left ih
    | register | send | wake | skip | resume | finish | unwait => exact ih h

lemma Rule.removeCalled_mono (hr : Rule m a m') (hf : m'.fault = none) (hno : ¬ Installs m m' id)
    (h : removeCalled id m.log = true) : removeCalled id m'.log = true := by
  cases hr with
  | fault hf' | removeFault _ hf' | resumeFault _ _ _ _ _ _ _ _ _ hf' => simp [hf] at hf'
  | yieldedLoop id₀ th oldCurr y | yieldedReturn id₀ th oldCurr y =>
    dsimp only
    split_ifs
    · exact h
    · exact h
  | append user id₀ name body startNow s hs hch =>
    have hne : id₀ ≠ id := by rintro rfl; exact hno ⟨m.nextThread, startTask_log⟩
    rw [startTask_log]
    simpa [Machine.installTask, Machine.coroCreate, removeCalled, hne] using h
  | restart _ id₀ =>
    have hne : id₀ ≠ id := by rintro rfl; exact hno ⟨m.nextThread, rfl⟩
    simpa [Machine.call, Machine.coroCreate, removeCalled, hne] using h
  | remove | removeWaiting => simp [removeCalled, h]
  | _ => exact h

/-! ### Sends and waits -/

lemma Rule.eq_sendEvent (hr : Rule m (.send e) m') (hf : m'.fault = none) : m' = m.sendEvent e := by
  cases hr with
  | fault hf' => simp [hf] at hf'
  | send => rfl
  | restart _ _ _ _ _ _ hc => cases hc

/-- A send of `e` is unhandled once it is made. -/
lemma mem_unhandled_sendEvent (hb : EventBus.Behind m.bus) (e : EventID) :
    e ∈ (m.sendEvent e).bus.unhandled := by
  have hle : m.handled ≤ m.sched.pendingWakeupEvent.length := hb.handled_le
  show e ∈ (m.sched.pendingWakeupEvent ++ [e]).drop m.handled
  rw [List.drop_append_of_le_length hle]
  exact List.mem_append_right _ List.mem_cons_self

lemma Rule.wait_spec (hr : Rule m (.wait e) m') (hf : m'.fault = none) :
    (∃ w ∈ m'.bus.waiting e, w.taskId = m.sched.currTaskId) ∧
      m'.sched.taskCoroutineMap = m.sched.taskCoroutineMap ∧
      m'.sched.userRemovalTasksSet = m.sched.userRemovalTasksSet ∧
      ∀ id, removeCalled id m'.log = removeCalled id m.log := by
  cases hr with
  | fault hf' => simp [hf] at hf'
  | restart _ _ _ _ _ _ hc => cases hc
  | wait _ l id th oldCurr rest hs hl =>
    refine ⟨⟨⟨m.sched.currTaskId, m.nextWaitNo⟩, ?_, rfl⟩, rfl, rfl, fun _ => rfl⟩
    show _ ∈ EventTables.waiting { m.sched.eventTables with
      eventTaskIdListMap := m.sched.eventTables.eventTaskIdListMap.insert e
        (l ++ [⟨m.sched.currTaskId, m.nextWaitNo⟩]) } e
    rw [waiting_insert, Function.update_self]
    exact List.mem_append_right _ List.mem_cons_self

/-! ### What leads to a coroutine -/

/-- The call will resume the coroutine `th` of `id`, or runs it. -/
def Frame.leads (id : TaskID) (th : ThreadID) : Frame → Bool
  | .call id' => decide (id' = id)
  | .body id' th' _ => decide (id' = id ∧ th' = th)
  | .wakeup _ (some (_, ws)) => ws.any fun w => decide (w.taskId = id)
  | .resumed .. | .wakeup _ none | .pass .. => false

/-- The task is on the list of `e`, or a call in progress leads to its coroutine. -/
def Machine.Placed (m : Machine) (e : EventID) (id : TaskID) (th : ThreadID) : Prop :=
  (∃ w ∈ m.bus.waiting e, w.taskId = id) ∨ ∃ f ∈ m.stack, f.leads id th = true

lemma Machine.Placed.mono (h : m.Placed e id th)
    (hw : ∀ w ∈ m.bus.waiting e, w.taskId = id → m'.Placed e id th)
    (hs : ∀ f ∈ m.stack, f.leads id th = true → ∃ f ∈ m'.stack, f.leads id th = true) :
    m'.Placed e id th := by
  rcases h with ⟨w, hmem, hid⟩ | ⟨f, hmem, hlead⟩
  · exact hw w hmem hid
  · exact .inr (hs f hmem hlead)

lemma Machine.Placed.pop {f : Frame} {rest : List Frame} (h : m.Placed e id th)
    (hs : m.stack = f :: rest) (hf : f.leads id th = false)
    (hw : ∀ w ∈ m.bus.waiting e, w.taskId = id → m'.Placed e id th)
    (hrest : ∀ f ∈ rest, f ∈ m'.stack) : m'.Placed e id th := by
  refine h.mono hw fun g hmem hlead => ⟨g, ?_, hlead⟩
  rw [hs] at hmem
  rcases List.mem_cons.mp hmem with rfl | hmem
  · exact absurd (hlead.symm.trans hf) (by simp)
  · exact hrest g hmem

lemma mem_insert_waiting {t : EventTables} {e' : EventID} {l : List Waiter} {w : Waiter}
    (hw : w ∈ t.waiting e) (hl : e = e' → w ∈ l) :
    w ∈ EventTables.waiting { t with eventTaskIdListMap := t.eventTaskIdListMap.insert e' l } e := by
  rw [waiting_insert]
  exact EventBus.mem_update_of_mem hw hl

lemma ChosenEvent.ne {s s' : Scheduler} {user : Option EventID} {e' : EventID}
    (h : ChosenEvent s user e' s') (hname : s.eventNameMap e ≠ none) (hnew : user ≠ some e) :
    e ≠ e' := by
  rintro rfl
  cases h with
  | given => exact hnew rfl
  | fresh _ _ h => exact hname (Scheduler.allocEventId_eq_some h).1

/-- A step that makes no new handle of `e` and leaves no body of `th` keeps the task in its place,
unless it removes the task or restarts it. -/
lemma Rule.placed (hr : Rule m a m') (hf : m'.fault = none)
    (hname : m.sched.eventNameMap e ≠ none) (hnew : ∀ name, a ≠ .newEventHdl name (some e))
    (hth : m.sched.taskCoroutineMap id = some th) (hflag : id ∉ m.sched.userRemovalTasksSet)
    (hrem : removeCalled id m'.log = false)
    (hout : ∀ id' oldCurr rest, m.stack ≠ .body id' th oldCurr :: rest)
    (h : m.Placed e id th) : m'.Placed e id th := by
  have hin : ∀ w, w ∈ m'.bus.waiting e → w.taskId = id → m'.Placed e id th :=
    fun w hw hid => .inl ⟨w, hw, hid⟩
  have hsame : m'.bus.waiting = m.bus.waiting →
      ∀ w ∈ m.bus.waiting e, w.taskId = id → m'.Placed e id th := by
    intro ht w hw
    rw [← ht] at hw
    exact hin w hw
  have hbody : ∀ {id₀ th₀ oldCurr rest}, m.stack = .body id₀ th₀ oldCurr :: rest →
      Frame.leads id th (.body id₀ th₀ oldCurr) = false := by
    intro id₀ th₀ oldCurr rest hs
    refine decide_eq_false fun hlead => ?_
    obtain ⟨-, rfl⟩ := hlead
    exact hout _ _ _ hs
  cases hr with
  | fault hf' | removeFault _ hf' | resumeFault _ _ _ _ _ _ _ _ _ hf' => simp [hf] at hf'
  | skip id₀ rest hs hnr hset =>
    have ht := (keeps_skip m.sched id₀).eventTables
    refine h.pop hs (decide_eq_false ?_) (hsame (congrArg EventTables.waiting ht)) fun f hf => hf
    rintro rfl
    exact hflag hset
  | resume id₀ rest cnt th₀ t hs _ _ hc₀ =>
    have ht := hsame (congrArg EventTables.waiting (keeps_drainPendingRemoval m.sched).eventTables)
    by_cases heq : id₀ = id
    · subst heq
      have hthread : th₀ = th := Option.some.inj (hc₀.symm.trans hth)
      exact .inr ⟨_, List.mem_cons_self, by simp [Frame.leads, hthread]⟩
    · exact h.pop hs (decide_eq_false heq) ht fun f hf => List.mem_cons_of_mem _ hf
  | yieldedLoop id₀ th₀ oldCurr y rest hs =>
    have ht : (m.sched.settle m.mode id₀ oldCurr y).eventTables.waiting =
        m.sched.eventTables.waiting := congrArg EventTables.waiting (settle_eventTables ..)
    exact h.pop hs rfl (hsame ht) fun f hf => List.mem_cons_of_mem _ hf
  | yieldedReturn id₀ th₀ oldCurr y rest hs =>
    have ht := settle_eventTables m.sched m.mode id₀ oldCurr y
    exact h.pop hs rfl (hsame (congrArg EventTables.waiting ht)) fun f hf => hf
  | loopWake next e' w ws rest hs =>
    by_cases hw : w.taskId = id
    · exact .inr ⟨_, List.mem_cons_self, decide_eq_true hw⟩
    · refine h.mono hin ?_
      rw [hs]
      intro f hmem hlead
      rcases List.mem_cons.mp hmem with rfl | hmem
      · have hrest : Frame.leads id th (.wakeup next (some (e', ws))) = true := by
          simpa [Frame.leads, hw] using hlead
        exact ⟨_, List.mem_cons_of_mem _ List.mem_cons_self, hrest⟩
      · exact ⟨f, List.mem_cons_of_mem _ (List.mem_cons_of_mem _ hmem), hlead⟩
  | loopNext next e' rest hs => exact h.pop hs rfl hin fun f hf => List.mem_cons_of_mem _ hf
  | loopTake next e' l rest hs he hl =>
    refine h.pop hs rfl (fun w hw hid => ?_) fun f hf => List.mem_cons_of_mem _ hf
    by_cases heq : e = e'
    · -- the list has become the snapshot of the loop
      subst heq
      have hmem : w ∈ l := (waiting_of_eq_some hl) ▸ hw
      exact .inr ⟨_, List.mem_cons_self, List.any_eq_true.mpr ⟨w, hmem, by simpa using hid⟩⟩
    · exact hin w (mem_insert_waiting (t := m.sched.eventTables) hw fun h => absurd h heq) hid
  | loopClose next rest hs => exact h.pop hs rfl hin fun f hf => hf
  | startPass kind hs =>
    refine h.mono hin ?_
    rw [hs]
    intro f hmem
    cases hmem
  | pickFired _ _ _ _ rest hs | passReturn _ _ _ _ rest hs =>
    exact h.pop hs rfl hin fun f hf => List.mem_cons_of_mem _ hf
  | pick _ _ _ _ _ rest hs =>
    exact h.pop hs rfl hin fun f hf => List.mem_cons_of_mem _ (List.mem_cons_of_mem _ hf)
  | endPass _ _ _ rest hs => exact h.pop hs rfl hin fun f hf => hf
  | fire => exact h.mono hin fun f hmem hlead => ⟨f, List.mem_cons_of_mem _ hmem, hlead⟩
  | restart _ id₀ name body s hs hc =>
    exact h.mono (hsame (congrArg EventTables.waiting hc.keeps.eventTables))
      fun f hmem hlead => ⟨f, List.mem_cons_of_mem _ hmem, hlead⟩
  | append user id₀ name body startNow s hs hc =>
    have ht : ((Machine.installTask { m with sched := s } id₀ name body).startTask
        id₀ startNow).bus = m.bus := by
      rw [startTask_bus]
      exact bus_eq ((keeps_clearUserRemoval s id₀).eventTables.trans hc.eventTables) rfl rfl rfl
    refine h.mono (fun w hw => hin w (by rw [ht]; exact hw)) fun f hmem hlead => ⟨f, ?_, hlead⟩
    rcases startTask_stack (Machine.installTask { m with sched := s } id₀ name body)
      id₀ startNow with heq | heq
    · rw [heq]; exact hmem
    · rw [heq]; exact List.mem_cons_of_mem _ hmem
  | newEventHdl name user e' s hs hc =>
    have hne : e ≠ e' := hc.ne hname fun h => hnew name (by rw [h])
    refine h.mono (fun w hw => hin w ?_) fun f hmem hlead => ⟨f, hmem, hlead⟩
    rw [hc.installEvent_bus]
    exact EventBus.mem_update_of_mem hw fun h => absurd h hne
  | removeEvent | send | tryRunning | awaitPosedge | awaitNegedge =>
    exact h.mono hin fun f hmem hlead => ⟨f, hmem, hlead⟩
  | remove id₀ =>
    exact h.mono (hsame (congrArg EventTables.waiting (keeps_flagUserRemoval ..).eventTables))
      fun f hmem hlead => ⟨f, hmem, hlead⟩
  | removeWaiting id₀ e' l i w₀ hs he hl hi hw₀ =>
    refine h.mono (fun w hw hid => hin w ?_ hid) fun f hmem hlead => ⟨f, hmem, hlead⟩
    have ht := (keeps_flagUserRemoval m.sched id₀).eventTables
    have hmem : w ∈ EventTables.waiting { (m.sched.flagUserRemoval id₀).eventTables with
        eventTaskIdListMap := m.sched.eventTaskIdListMap.insert e' (l.eraseIdx i) } e := by
      rw [ht]
      refine mem_insert_waiting (t := m.sched.eventTables) hw ?_
      rintro rfl
      have hmem : w ∈ l := (waiting_of_eq_some hl) ▸ hw
      refine (EventBus.mem_eraseIdx_or hi hmem).resolve_left ?_
      rintro rfl
      simp [removeCalled, ← hw₀, hid] at hrem
    exact hmem
  | wait e' l id₀ th₀ oldCurr rest hs hl =>
    refine h.pop hs (hbody hs) (fun w hw => hin w ?_) fun f hf => List.mem_cons_of_mem _ hf
    refine mem_insert_waiting (t := m.sched.eventTables) hw ?_
    rintro rfl
    exact List.mem_append_left _ ((waiting_of_eq_some hl) ▸ hw)
  | insertWaiter e' l id₀ th₀ oldCurr rest hs hl =>
    refine h.mono (fun w hw => hin w ?_) fun f hmem hlead => ⟨f, hmem, hlead⟩
    refine mem_insert_waiting (t := m.sched.eventTables) hw ?_
    rintro rfl
    exact List.mem_append_left _ ((waiting_of_eq_some hl) ▸ hw)
  | awaitCallback always id₀ th₀ oldCurr rest hs | yield y id₀ th₀ oldCurr rest hs =>
    exact h.pop hs (hbody hs) hin fun f hf => List.mem_cons_of_mem _ hf

/-! ### Bodies that run are not flagged -/

lemma Rule.mem_body {oldCurr : TaskID} (hr : Rule m a m') (hcount : m.sched.Counted)
    (hf : m'.fault = none) (h : .body id th oldCurr ∈ m'.stack) :
    .body id th oldCurr ∈ m.stack ∨ id ∉ m.sched.userRemovalTasksSet := by
  have htail : ∀ {f : Frame} {rest : List Frame}, m.stack = f :: rest →
      .body id th oldCurr ∈ rest → .body id th oldCurr ∈ m.stack := by
    intro f rest hs hmem
    rw [hs]
    exact List.mem_cons_of_mem _ hmem
  cases hr with
  | fault hf' | removeFault _ hf' | resumeFault _ _ _ _ _ _ _ _ _ hf' => simp [hf] at hf'
  | resume id₀ rest cnt th₀ t hs hskip =>
    rcases List.mem_cons.mp h with heq | h
    · cases heq
      exact .inr fun hset => hskip ⟨hcount.nrUser_pos hset, hset⟩
    · exact .inl (htail hs h)
  | skip _ _ hs | yieldedReturn _ _ _ _ _ hs | loopClose _ _ hs | endPass _ _ _ _ hs =>
    exact .inl (htail hs h)
  | startPass => simp at h
  | append user id₀ name body startNow s hs hc =>
    rcases startTask_stack (Machine.installTask { m with sched := s } id₀ name body)
      id₀ startNow with heq | heq
    · exact .inl (heq ▸ h)
    · rw [heq] at h
      exact .inl ((List.mem_cons.mp h).resolve_left (by simp))
  | yieldedLoop _ _ _ _ _ hs | loopNext _ _ _ hs | loopTake _ _ _ _ hs
  | pickFired _ _ _ _ _ hs | passReturn _ _ _ _ _ hs | wait _ _ _ _ _ _ hs
  | awaitCallback _ _ _ _ _ hs | yield _ _ _ _ _ hs =>
    exact .inl (htail hs (by simpa [Machine.coroYield] using h))
  | loopWake _ _ _ _ _ hs | pick _ _ _ _ _ _ hs => exact .inl (htail hs (by simpa using h))
  | fire | restart => exact .inl (by simpa [Machine.call, Machine.coroCreate] using h)
  | newEventHdl | removeEvent | send | tryRunning | remove | removeWaiting | insertWaiter
  | awaitPosedge | awaitNegedge => exact .inl h

/-- The task of a coroutine that runs is not flagged for removal unless `remove_task` was called
since the coroutine was made. -/
def RunningUnflagged (m : Machine) : Prop :=
  ∀ id th oldCurr, .body id th oldCurr ∈ m.stack → m.sched.taskCoroutineMap id = some th →
    removeCalled id m.log = false → id ∉ m.sched.userRemovalTasksSet

/-- A coroutine that a step leaves as the one of `id` was that before, if a call has resumed it. -/
lemma Rule.not_installs (hr : Rule m a m') (hc : Coroutines m) (hf : m'.fault = none)
    (hth : m'.sched.taskCoroutineMap id = some th) (hsome : (m.threads th).isSome) :
    ¬ Installs m m' id := by
  intro hins
  have hne : th ≠ m.nextThread := Nat.ne_of_lt (hc.bound th hsome)
  rcases hr.installs hf hins with ⟨user, name, body, startNow, s, -, -, rfl⟩ |
    ⟨name, body, s, -, rfl⟩
  · rw [startTask_threads.2] at hth
    simp only [Machine.installTask, Machine.coroCreate, Function.update_self] at hth
    exact hne (Option.some.inj hth).symm
  · simp only [Machine.call, Machine.coroCreate, Function.update_self] at hth
    exact hne (Option.some.inj hth).symm

lemma Rule.notMem_flags (hr : Rule m a m') (hf : m'.fault = none)
    (hflag : id ∉ m.sched.userRemovalTasksSet) (hrem : removeCalled id m'.log = false) :
    id ∉ m'.sched.userRemovalTasksSet := by
  intro h
  rcases hr.flags hf h with h | h
  · exact hflag h
  · exact absurd (hrem.symm.trans (removeCalled_of_removedSince h)) (by simp)

lemma RunningUnflagged.step (h : RunningUnflagged m) (hr : Rule m a m') (hc : Coroutines m)
    (hcount : m.sched.Counted) (hf : m'.fault = none) : RunningUnflagged m' := by
  intro id th oldCurr hmem hth hrem
  refine hr.notMem_flags hf ?_ hrem
  rcases hr.mem_body hcount hf hmem with hmem | hflag
  · have hrun : (id, th) ∈ m.runs := List.mem_filterMap.mpr ⟨_, hmem, rfl⟩
    have hno := hr.not_installs hc hf hth (hc.runs _ hrun).1
    rw [hr.coroutine_eq hf hno] at hth
    refine h id th oldCurr hmem hth ?_
    by_contra hcalled
    have hcalled' := hr.removeCalled_mono hf hno (by simpa using hcalled)
    exact absurd (hrem.symm.trans hcalled') (by simp)
  · exact hflag

lemma runningUnflagged_of_reached (h : Machine.Reached mode ok m) :
    m.fault = none → RunningUnflagged m := by
  refine Reach.invariant (I := fun m : Machine => m.fault = none → RunningUnflagged m) h
    (fun _ _ _ _ hmem => by cases hmem) ?_
  intro m a m' hm ih _ hs hf
  obtain ⟨hfm, hr⟩ := Rule.of_step hs
  exact (ih hfm).step hr (coroutines_of_reached hm hfm) (counted_of_reached hm hfm) hf

end Verilua
