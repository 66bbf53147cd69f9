import Verilua.Scheduler.Stack
import Verilua.Lib.EventBus

/-!
# The scheduler refines an event bus

Seen through its events, the scheduler is an `EventBus`: the wake-up loops on the call stack are
the loops of the bus, and every step of the scheduler is one step of the bus or none. What the
bus guarantees over its runs then holds of the scheduler's.
-/

namespace Verilua

open TransitionSystem

abbrev EventBus := EventBus.Bus EventID Waiter

def Frame.loop? : Frame → Option (EventBus.Loop EventID Waiter)
  | .wakeup next taken => some ⟨next, taken⟩
  | _ => none

def Ev.entry? : Ev → Option (EventBus.Entry EventID Waiter)
  | .register e w => some (.register e w)
  | .send e ws => some (.send e ws)
  | .wake e w => some (.hand e w)
  | .unwait e w => some (.drop e w)
  | _ => none

def Ev.ofEntry : EventBus.Entry EventID Waiter → Ev
  | .register e w => .register e w
  | .send e ws => .send e ws
  | .hand e w => .wake e w
  | .drop e w => .unwait e w

lemma mem_filterMap_entryOf {log : List Ev} {x : EventBus.Entry EventID Waiter} :
    x ∈ log.filterMap Ev.entry? ↔ Ev.ofEntry x ∈ log := by
  rw [List.mem_filterMap]
  constructor
  · rintro ⟨y, hy, heq⟩
    cases y <;> cases heq <;> exact hy
  · exact fun hx => ⟨_, hx, by cases x <;> rfl⟩

/-- The events of the log that the bus knows. -/
def Machine.busLog (m : Machine) : List (EventBus.Entry EventID Waiter) := m.log.filterMap Ev.entry?

def EventTables.waiting (t : EventTables) (e : EventID) : List Waiter :=
  (t.eventTaskIdListMap.lookup e).getD []

def Machine.bus (m : Machine) : EventBus where
  waiting := m.sched.eventTables.waiting
  pending := m.sched.pendingWakeupEvent
  handled := m.handled
  flag := m.sched.hasWakeupEvent
  loops := m.stack.filterMap Frame.loop?
  log := m.busLog

/-! ### The flag is down inside a wake-up loop -/

/-- The code that runs, or that the call at the top returns to, is a wake-up loop. -/
def AtLoop : List Frame → Prop
  | .call _ :: rest => AtLoop rest
  | .wakeup .. :: _ => True
  | _ => False

lemma AtCode.not_atLoop {stack : List Frame} (h : AtCode stack) : ¬ AtLoop stack := by
  cases stack with
  | nil => exact fun hl => hl
  | cons f rest =>
    cases f with
    | body => exact fun hl => hl
    | call | resumed | wakeup | pass => exact h.elim

/-- `has_wakeup_event` is reset before the loop starts and set by code only. -/
def FlagDown (m : Machine) : Prop := AtLoop m.stack → m.sched.hasWakeupEvent = false

variable {m m' : Machine} {a : Act}

lemma hasWakeupEvent_congr {s s' : Scheduler} (h : s'.eventTables = s.eventTables) :
    s'.hasWakeupEvent = s.hasWakeupEvent := congrArg EventTables.hasWakeupEvent h

lemma keeps_skip (s : Scheduler) (id : TaskID) :
    Keeps s ((s.drainPendingRemoval.clearUserRemoval id).unregister id) :=
  ((keeps_drainPendingRemoval s).trans (keeps_clearUserRemoval _ id)).trans (keeps_unregister _ id)

lemma startTask_atLoop {id : TaskID} {startNow : Bool} (h : AtLoop (m.startTask id startNow).stack) :
    AtLoop m.stack := by
  rcases startTask_stack m id startNow with heq | heq
  · rwa [heq] at h
  · rwa [heq] at h

lemma FlagDown.step (h : FlagDown m) (hshape : Shaped m.stack) (hr : Rule m a m')
    (hf : m'.fault = none) : FlagDown m' := by
  cases hr with
  | fault hf' | removeFault _ hf' | resumeFault _ _ _ _ _ _ _ _ _ hf' => simp [hf] at hf'
  | skip id rest hs =>
    intro hl
    exact (hasWakeupEvent_congr (keeps_skip m.sched id).eventTables).trans (h (by rw [hs]; exact hl))
  | resume => exact fun hl => hl.elim
  | yieldedLoop => exact fun _ => rfl
  | yieldedReturn id th oldCurr y rest hs hy hflag =>
    exact fun _ => (hasWakeupEvent_congr (settle_eventTables ..)).trans hflag
  | loopWake next e w ws rest hs => exact fun _ => h (by rw [hs]; trivial)
  | loopNext next e rest hs => exact fun _ => h (by rw [hs]; trivial)
  | loopTake next e l rest hs => exact fun _ => h (by rw [hs]; trivial)
  | loopClose next rest hs => exact fun _ => h (by rw [hs]; trivial)
  | startPass | pickFired | pick | passReturn => exact fun hl => hl.elim
  | endPass kind start visited rest hs =>
    rw [hs] at hshape
    cases hshape.pass_bottom
    exact fun hl => hl.elim
  | append user id name body startNow s hs hc => exact fun hl => absurd (startTask_atLoop hl) hs.not_atLoop
  | fire _ _ hs | newEventHdl _ _ _ _ hs | removeEvent _ hs | send _ hs | restart _ _ _ _ _ hs
  | tryRunning _ hs | remove _ hs | removeWaiting _ _ _ _ _ hs =>
    exact fun hl => absurd hl hs.not_atLoop
  | wait | yield | awaitCallback => exact fun hl => hl.elim
  | insertWaiter e l id th oldCurr rest hs =>
    exact fun hl => absurd hl (AtCode.not_atLoop (by rw [hs]; trivial))
  | awaitPosedge id th oldCurr rest hs | awaitNegedge id th oldCurr rest hs =>
    exact fun hl => absurd hl (AtCode.not_atLoop (by rw [hs]; trivial))

/-! ### Refinement -/

/-- The action of the bus that an action of the scheduler amounts to. -/
inductive BusAct (m : Machine) : Act → EventBus.Act EventID Waiter → Prop
  | wait (e) : BusAct m (.wait e) (.register e ⟨m.sched.currTaskId, m.nextWaitNo⟩)
  | insertWaiter (e) : BusAct m (.insertWaiter e) (.register e ⟨m.sched.currTaskId, m.nextWaitNo⟩)
  | send (e) : BusAct m (.send e) (.send e)
  | removeTask (id e i) : BusAct m (.removeTask id) (.drop e i)
  | newEventHdl (name user e s) (h : ChosenEvent m.sched user e s) :
      BusAct m (.newEventHdl name user) (.reset e)
  | yielded : BusAct m .yielded .beginLoop
  | loop (next taken rest) (hs : m.stack = .wakeup next taken :: rest) : BusAct m .loop .loop

lemma bus_eq (ht : m'.sched.eventTables = m.sched.eventTables) (hh : m'.handled = m.handled)
    (hl : m'.stack.filterMap Frame.loop? = m.stack.filterMap Frame.loop?)
    (hlog : m'.busLog = m.busLog) : m'.bus = m.bus := by
  have hp : m'.sched.pendingWakeupEvent = m.sched.pendingWakeupEvent :=
    congrArg EventTables.pendingWakeupEvent ht
  unfold Machine.bus
  rw [ht, hasWakeupEvent_congr ht, hp, hh, hl, hlog]

lemma waiting_insert (t : EventTables) (e : EventID) (l : List Waiter) :
    EventTables.waiting { t with
      eventTaskIdListMap := t.eventTaskIdListMap.insert e l } =
    Function.update t.waiting e l := by
  funext e'
  by_cases he : e' = e
  · subst he; simp [EventTables.waiting]
  · simp [EventTables.waiting, he]

lemma waiting_of_eq_some {s : Scheduler} {e : EventID} {l : List Waiter}
    (h : s.eventTaskIdListMap.lookup e = some l) : s.eventTables.waiting e = l := by
  show (s.eventTaskIdListMap.lookup e).getD [] = l
  rw [h]
  rfl

lemma startTask_bus {id : TaskID} {startNow : Bool} : (m.startTask id startNow).bus = m.bus := by
  unfold Machine.startTask
  split_ifs <;> rfl

lemma bus_loop {next : Nat} {taken : Option (EventID × List Waiter)} {rest : List Frame}
    (hs : m.stack = .wakeup next taken :: rest) (hd : FlagDown m) :
    m.bus.step .loop = m.bus.advance ∧
      m.bus.loops = ⟨next, taken⟩ :: rest.filterMap Frame.loop? := by
  have hflag : m.bus.flag = false := hd (by rw [hs]; trivial)
  refine ⟨by simp [EventBus.Bus.step, hflag], ?_⟩
  unfold Machine.bus
  rw [hs]
  rfl

lemma busLog_finish (m : Machine) (id : TaskID) (th : ThreadID) (b : Bool) :
    (if b then .finish id th :: m.log else m.log).filterMap Ev.entry? = m.busLog := by
  cases b <;> rfl

lemma Chosen.eventTables {s s' : Scheduler} {user : Option TaskID} {id : TaskID}
    (h : Chosen s user id s') : s'.eventTables = s.eventTables := by
  cases h with
  | given => rfl
  | fresh _ _ h => rw [(Scheduler.allocTaskId_eq_some h).2.2.2]; rfl

lemma ChosenEvent.installEvent_bus {s : Scheduler} {user : Option EventID} {e : EventID}
    (h : ChosenEvent m.sched user e s) (name : String) :
    Machine.bus { m with sched := s.installEvent name e } =
      { m.bus with waiting := Function.update m.bus.waiting e [] } := by
  have hw : (s.installEvent name e).eventTables.waiting =
      Function.update m.sched.eventTables.waiting e [] := by
    cases h with
    | given => exact waiting_insert m.sched.eventTables e []
    | fresh _ _ h =>
      rw [(Scheduler.allocEventId_eq_some h).2.2.2]
      exact waiting_insert m.sched.eventTables e []
  unfold Machine.bus
  rw [← hw]
  cases h with
  | given => rfl
  | fresh _ _ h => rw [(Scheduler.allocEventId_eq_some h).2.2.2]; rfl

/-- One step of the scheduler is one step of the bus or none. -/
theorem Rule.refines (hr : Rule m a m') (hd : FlagDown m) (hf : m'.fault = none) :
    m'.bus = m.bus ∨ ∃ b, BusAct m a b ∧ m.bus.step b = some m'.bus := by
  cases hr with
  | fault hf' | removeFault _ hf' | resumeFault _ _ _ _ _ _ _ _ _ hf' => simp [hf] at hf'
  | skip id rest hs =>
    exact .inl (bus_eq (keeps_skip m.sched id).eventTables rfl (by rw [hs]; rfl) rfl)
  | resume id rest cnt th t hs =>
    exact .inl (bus_eq (keeps_drainPendingRemoval m.sched).eventTables rfl (by rw [hs]; rfl) rfl)
  | yieldedLoop id th oldCurr y rest hs hy hflag =>
    refine .inr ⟨.beginLoop, .yielded, ?_⟩
    have ht := settle_eventTables m.sched m.mode id oldCurr y
    have hp : (m.sched.settle m.mode id oldCurr y).pendingWakeupEvent =
        m.sched.pendingWakeupEvent := congrArg EventTables.pendingWakeupEvent ht
    have hw : (m.sched.settle m.mode id oldCurr y).eventTables.waiting =
        m.sched.eventTables.waiting := congrArg EventTables.waiting ht
    have hloops : m.bus.loops = rest.filterMap Frame.loop? := by
      unfold Machine.bus
      rw [hs]
      rfl
    have hstep : m.bus.step .beginLoop =
        some { m.bus with flag := false, loops := ⟨0, none⟩ :: m.bus.loops } := if_pos hflag
    rw [hstep, hloops]
    exact congrArg some (EventBus.Bus.ext hw.symm hp.symm rfl rfl rfl (busLog_finish ..).symm)
  | yieldedReturn id th oldCurr y rest hs hy hflag =>
    exact .inl (bus_eq (settle_eventTables ..) rfl (by rw [hs]; rfl) (busLog_finish ..))
  | loopWake next e w ws rest hs =>
    obtain ⟨hstep, hloops⟩ := bus_loop hs hd
    refine .inr ⟨.loop, .loop _ _ _ hs, ?_⟩
    simp only [hstep, EventBus.Bus.advance, hloops]
    rfl
  | loopNext next e rest hs =>
    obtain ⟨hstep, hloops⟩ := bus_loop hs hd
    refine .inr ⟨.loop, .loop _ _ _ hs, ?_⟩
    simp only [hstep, EventBus.Bus.advance, hloops]
    rfl
  | loopTake next e l rest hs he hl =>
    obtain ⟨hstep, hloops⟩ := bus_loop hs hd
    refine .inr ⟨.loop, .loop _ _ _ hs, ?_⟩
    have he' : m.bus.pending[next]? = some e := he
    have hl' : m.bus.waiting e = l := waiting_of_eq_some hl
    simp only [hstep, EventBus.Bus.advance, hloops, he', hl']
    exact congrArg some (EventBus.Bus.ext (waiting_insert m.sched.eventTables e []).symm
      rfl rfl rfl rfl rfl)
  | loopClose next rest hs he =>
    obtain ⟨hstep, hloops⟩ := bus_loop hs hd
    refine .inr ⟨.loop, .loop _ _ _ hs, ?_⟩
    have he' : m.bus.pending[next]? = none := he
    simp only [hstep, EventBus.Bus.advance, hloops, he']
    rfl
  | startPass kind hs => exact .inl (bus_eq rfl rfl (by rw [hs]; rfl) rfl)
  | pickFired id kind start visited rest hs | pick id kind start visited ret rest hs
  | passReturn id kind start visited rest hs | endPass kind start visited rest hs =>
    exact .inl (bus_eq rfl rfl (by rw [hs]; rfl) rfl)
  | fire n cb hs => exact .inl (bus_eq rfl rfl rfl rfl)
  | newEventHdl name user e s hs hc =>
    exact .inr ⟨.reset e, .newEventHdl name user e s hc, congrArg some (hc.installEvent_bus name).symm⟩
  | removeEvent e hs => exact .inl rfl
  | send e hs => exact .inr ⟨.send e, .send e, rfl⟩
  | append user id name body startNow s hs hc =>
    rw [startTask_bus]
    exact .inl (bus_eq ((keeps_clearUserRemoval s id).eventTables.trans hc.eventTables) rfl rfl rfl)
  | restart _ id name body s hs hc => exact .inl (bus_eq hc.keeps.eventTables rfl rfl rfl)
  | tryRunning => exact .inl rfl
  | remove id => exact .inl (bus_eq (keeps_flagUserRemoval ..).eventTables rfl rfl rfl)
  | removeWaiting id e l i w hs he hl hi =>
    refine .inr ⟨.drop e i, .removeTask id e i, ?_⟩
    have ht := (keeps_flagUserRemoval m.sched id).eventTables
    have hwait : m.bus.waiting e = l := waiting_of_eq_some hl
    have hw : EventTables.waiting { (m.sched.flagUserRemoval id).eventTables with
        eventTaskIdListMap := m.sched.eventTaskIdListMap.insert e (l.eraseIdx i) } =
        Function.update m.bus.waiting e (l.eraseIdx i) := by
      rw [ht]
      exact waiting_insert m.sched.eventTables e _
    simp only [EventBus.Bus.step, hwait, hi]
    exact congrArg some (EventBus.Bus.ext hw.symm
      (congrArg EventTables.pendingWakeupEvent ht).symm rfl
      (congrArg EventTables.hasWakeupEvent ht).symm rfl rfl)
  | wait e l id th oldCurr rest hs hl =>
    refine .inr ⟨_, .wait e, ?_⟩
    have hwait : m.bus.waiting e = l := waiting_of_eq_some hl
    simp only [EventBus.Bus.step, hwait]
    refine congrArg some (EventBus.Bus.ext (waiting_insert m.sched.eventTables e _).symm
      rfl rfl rfl ?_ rfl)
    unfold Machine.bus
    rw [hs]
    rfl
  | insertWaiter e l id th oldCurr rest hs hl =>
    refine .inr ⟨_, .insertWaiter e, ?_⟩
    have hwait : m.bus.waiting e = l := waiting_of_eq_some hl
    simp only [EventBus.Bus.step, hwait]
    exact congrArg some (EventBus.Bus.ext (waiting_insert m.sched.eventTables e _).symm
      rfl rfl rfl rfl rfl)
  | awaitCallback always id th oldCurr rest hs | yield y id th oldCurr rest hs =>
    exact .inl (bus_eq rfl rfl (by rw [hs]; rfl) rfl)
  | awaitPosedge | awaitNegedge => exact .inl rfl

/-! ### Runs -/

variable {mode : Mode} {ok : Machine → Act → Prop}

lemma flagDown_of_reached (h : Machine.Reached mode ok m) : m.fault = none → FlagDown m := by
  refine Reach.invariant (I := fun m : Machine => m.fault = none → FlagDown m) h (fun _ hl => hl.elim) ?_
  intro m a m' hreach ih _ hs hf
  obtain ⟨hm, hr⟩ := Rule.of_step hs
  exact (ih hm).step (shaped_of_reached hreach hm) hr hf

lemma Rule.busLog_of_fault (hr : Rule m a m') (hm : m.fault = none) (hf : m'.fault ≠ none) :
    m'.busLog = m.busLog := by
  cases hr with
  | fault _ hlog => exact congrArg (List.filterMap Ev.entry?) hlog
  | removeFault _ _ hlog => exact (congrArg (List.filterMap Ev.entry?) hlog).trans rfl
  | resumeFault _ _ _ _ _ _ _ _ _ _ hlog =>
    exact (congrArg (List.filterMap Ev.entry?) hlog).trans rfl
  | append => exact absurd (by rw [startTask_fault]; exact hm) hf
  | _ => exact absurd hm hf

/-- A run of the scheduler is a run of the bus. The bus meets a side condition of its own if the
scheduler's one provides for it. -/
theorem bus_of_reached {G : EventBus → EventBus.Act EventID Waiter → Prop}
    (hG : ∀ m a b, Machine.Reached mode ok m → m.fault = none → ok m a → BusAct m a b → G m.bus b)
    (h : Machine.Reached mode ok m) :
    ∃ b, Reach EventBus.Bus.step G EventBus.Bus.init b ∧ b.log = m.busLog ∧
      (m.fault = none → m.bus = b) := by
  refine Reach.invariant (I := fun m : Machine => ∃ b, Reach EventBus.Bus.step G EventBus.Bus.init b ∧
    b.log = m.busLog ∧ (m.fault = none → m.bus = b)) h
    ⟨EventBus.Bus.init, .refl, rfl, fun _ => rfl⟩ ?_
  rintro m a m' hm ⟨b, hb, hlog, heq⟩ hok hs
  obtain ⟨hf, hr⟩ := Rule.of_step hs
  obtain rfl := heq hf
  by_cases hf' : m'.fault = none
  · rcases hr.refines (flagDown_of_reached hm hf) hf' with hsame | ⟨c, hc, hstep⟩
    · rw [← hsame] at hb
      exact ⟨m'.bus, hb, rfl, fun _ => rfl⟩
    · exact ⟨m'.bus, hb.tail (hG m a c hm hf hok hc) hstep, rfl, fun _ => rfl⟩
  · exact ⟨m.bus, hb, (hr.busLog_of_fault hf hf').symm, fun h => absurd h hf'⟩

end Verilua
