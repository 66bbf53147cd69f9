import Verilua.Scheduler.Bus

/-!
# Wake-ups and the waits and sends they answer

Two properties of the wake-up loop of `schedule_task`, both read off the event bus that the
scheduler refines: a wait is answered at most once, and by a send that came after it; and no
wake-up is lost once an outermost `schedule_task` has returned. Each fails in some runs; the
conditions under which it holds are stated on the steps of the run.
-/

namespace Verilua

open TransitionSystem

variable {m m' : Machine} {a : Act} {mode : Mode} {ok : Machine → Act → Prop}

/-! ### A wake-up answers a send made after the wait -/

/-- `e` was sent after the wait `w` on it. The log is newest first. -/
def sentSince (e : EventID) (w : Waiter) : List Ev → Bool
  | [] => false
  | .send e' _ :: log => e' = e && decide (.register e w ∈ log) || sentSince e w log
  | _ :: log => sentSince e w log

/-- Every wake-up of the log is preceded by a send that came after the wait. -/
def wakesAnswered : List Ev → Bool
  | [] => true
  | .wake e w :: log => sentSince e w log && wakesAnswered log
  | _ :: log => wakesAnswered log

/-- Each wait leads to at most one wake-up, and only after a later send on its event. -/
def Machine.AtMostOncePerWait (m : Machine) : Prop :=
  (∀ e w, m.log.count (.wake e w) ≤ 1) ∧ wakesAnswered m.log = true

/-- No task waits on an event that has an unhandled send; and a wake-up loop that comes to an
entry of `pending_wakeup_event` that was taken before finds nobody waiting there, unless the
event has been sent again and that send is unhandled. -/
def Machine.prompt (m : Machine) : Act → Bool
  | .wait e | .insertWaiter e => decide (e ∉ m.unhandled)
  | .loop =>
    match m.stack with
    | .wakeup next none :: _ =>
      match m.sched.pendingWakeupEvent[next]? with
      | some e => decide (next < m.handled → m.sched.waiting e = [] ∨ e ∈ m.unhandled)
      | none => true
    | _ => true
  | _ => true

/-- The numbers of the waits in the log are used up. -/
def FreshWaits (m : Machine) : Prop := ∀ e w, .register e w ∈ m.log → w.waitNo < m.nextWaitNo

lemma FreshWaits.mono (h : FreshWaits m) (hno : m'.nextWaitNo = m.nextWaitNo)
    (hlog : ∀ e w, .register e w ∈ m'.log → .register e w ∈ m.log) : FreshWaits m' :=
  fun e w hw => hno ▸ h e w (hlog e w hw)

lemma FreshWaits.step (h : FreshWaits m) (hr : Rule m a m') (hf : m'.fault = none) :
    FreshWaits m' := by
  cases hr with
  | fault hf' | removeFault _ hf' | resumeFault _ _ _ _ _ _ _ _ _ hf' => simp [hf] at hf'
  | wait e l | insertWaiter e l =>
    intro e' w hw
    rcases List.mem_cons.mp hw with hw | hw
    · cases hw; exact Nat.lt_succ_self _
    · exact Nat.lt_succ_of_lt (h e' w hw)
  | yieldedLoop id th oldCurr y | yieldedReturn id th oldCurr y =>
    refine h.mono rfl fun e w hw => ?_
    dsimp only at hw
    split_ifs at hw
    · simpa using hw
    · exact hw
  | append user id name body startNow s =>
    refine h.mono startTask_nextWaitNo fun e w hw => ?_
    rw [startTask_log] at hw
    simpa [Machine.installTask, Machine.coroCreate] using hw
  | skip | resume | loopWake | send | restart | remove | removeWaiting =>
    exact h.mono rfl fun e w hw => by simpa [Machine.call, Machine.coroCreate, Machine.sendEvent] using hw
  | _ => exact h.mono rfl fun e w hw => hw

lemma freshWaits_of_reached (h : Machine.Reached mode ok m) : m.fault = none → FreshWaits m := by
  refine Reach.invariant (I := fun m : Machine => m.fault = none → FreshWaits m) h
    (fun _ e w hw => by simp [Machine.init] at hw) ?_
  intro m a m' _ ih _ hs hf
  obtain ⟨hm, hr⟩ := Rule.of_step hs
  exact (ih hm).step hr hf

lemma sentSince_of_bus {e : EventID} {w : Waiter} {log : List Ev}
    (h : EventBus.SentSince e w (log.filterMap Ev.entry?)) : sentSince e w log = true := by
  induction log with
  | nil => exact absurd h EventBus.not_sentSince_nil
  | cons x log ih =>
    cases x with
    | send e' ws =>
      rcases EventBus.sentSince_cons h with ⟨ws', heq, hmem⟩ | h
      · cases heq
        have hreg : .register e w ∈ log := mem_filterMap_entryOf.mp hmem
        simp [sentSince, hreg]
      · simp [sentSince, ih h]
    | register e' w' | wake e' w' | unwait e' w' =>
      rcases EventBus.sentSince_cons h with ⟨ws', heq, -⟩ | h
      · cases heq
      · exact ih h
    | skip | resume | finish | remove | create => exact ih h

lemma wakesAnswered_of_bus {log : List Ev}
    (h : ∀ later e w earlier, log.filterMap Ev.entry? = later ++ .hand e w :: earlier →
      EventBus.SentSince e w earlier) : wakesAnswered log = true := by
  induction log with
  | nil => rfl
  | cons x log ih =>
    have hrest : ∀ y, Ev.entry? x = some y → wakesAnswered log = true := fun y hy =>
      ih fun later e w earlier heq => h (y :: later) e w earlier (by
        rw [List.filterMap_cons, hy, List.cons_append, heq])
    cases x with
    | wake e w =>
      have hw : EventBus.SentSince e w (log.filterMap Ev.entry?) := h [] e w _ rfl
      simp [wakesAnswered, sentSince_of_bus hw, hrest _ rfl]
    | register | send | unwait => exact hrest _ rfl
    | skip | resume | finish | remove | create => exact ih h

lemma count_wake (log : List Ev) (e : EventID) (w : Waiter) :
    log.count (.wake e w) = (log.filterMap Ev.entry?).count (.hand e w) := by
  induction log with
  | nil => rfl
  | cons x log ih =>
    cases x <;> simp only [List.filterMap_cons, Ev.entry?, List.count_cons, ih] <;> simp

lemma BusAct.fresh (h : FreshWaits m) {b : EventBus.Act EventID Waiter} (hb : BusAct m a b) :
    EventBus.Fresh m.bus b := by
  have hnew : ∀ e, .register e ⟨m.sched.currTaskId, m.nextWaitNo⟩ ∉ m.busLog := by
    intro e hmem
    exact absurd (h _ _ (mem_filterMap_entryOf.mp hmem)) (Nat.lt_irrefl _)
  cases hb with
  | wait e | insertWaiter e => exact hnew e
  | send | removeTask | newEventHdl | yielded | loop => trivial

lemma BusAct.prompt (h : m.prompt a = true) {b : EventBus.Act EventID Waiter}
    (hb : BusAct m a b) : EventBus.Prompt m.bus b := by
  cases hb with
  | wait e | insertWaiter e => exact (of_decide_eq_true h : e ∉ m.unhandled)
  | loop next taken rest hs =>
    intro k ls e hloops he hk
    have hloops' : m.bus.loops = ⟨next, taken⟩ :: rest.filterMap Frame.loop? := by
      unfold Machine.bus; rw [hs]; rfl
    rw [hloops'] at hloops
    cases hloops
    have he' : m.sched.pendingWakeupEvent[next]? = some e := he
    simp only [Machine.prompt, hs, he', decide_eq_true_eq] at h
    exact h hk
  | send | removeTask | newEventHdl | yielded => trivial

/-- The bus hands out each wait at most once, since each has its own number. -/
lemma once_of_reached (h : Machine.Reached mode ok m) :
    ∃ b : EventBus, EventBus.Once b ∧ b.log = m.busLog ∧ (m.fault = none → m.bus = b) := by
  obtain ⟨b, hb, hlog, heq⟩ := bus_of_reached (G := EventBus.Fresh)
    (fun m a b hm hf _ hb => hb.fresh (freshWaits_of_reached hm hf)) h
  exact ⟨b, EventBus.once_of_reach hb, hlog, heq⟩

lemma wakesAnswered_of_reached (h : Machine.Reached mode (fun m a => m.prompt a = true) m) :
    wakesAnswered m.log = true := by
  obtain ⟨b, hb, hlog, -⟩ := bus_of_reached (G := EventBus.Prompt)
    (fun _ _ _ _ _ hok hb => hb.prompt hok) h
  have hans := EventBus.answered_of_reach hb
  exact wakesAnswered_of_bus fun later e w earlier heq =>
    hans.handed later e w earlier (hlog.trans heq)

/-- In a run of prompt steps every wait leads to at most one wake-up, and only after a later send
on its event. -/
theorem atMostOncePerWait_of_prompt
    (h : Machine.Reached mode (fun m a => m.prompt a = true) m) : m.AtMostOncePerWait := by
  obtain ⟨b, honce, hlog, -⟩ := once_of_reached h
  refine ⟨fun e w => ?_, wakesAnswered_of_reached h⟩
  rw [count_wake]
  have hle := honce.count_hand_le_one e w
  rw [hlog] at hle
  exact hle

/-- `A: e:wait(); g:send(); e:wait()` and `B: e:send()`: the send of `g` starts a loop inside the
one that wakes `A`, and that loop comes to the send of `e` again. -/
def waitAgainWhileWoken : List Act :=
  [.newEventHdl "e" none, .newEventHdl "g" none,
   .appendTask none "A" 0 true, .enter, .wait 1, .yielded,
   .appendTask none "B" 1 true, .enter, .send 1, .yield .noop, .yielded,
   .loop, .loop, .enter, .send 2, .wait 1, .yielded, .loop, .loop]

theorem not_atMostOncePerWait :
    ¬ ∀ m, Machine.Reached .normal Unguarded m → m.AtMostOncePerWait := by
  intro h
  have hrun : (run Machine.step (Machine.init .normal) waitAgainWhileWoken).map
      (fun m => wakesAnswered m.log) = some false := by decide +kernel
  obtain ⟨m, hm, hlog⟩ := Option.map_eq_some_iff.mp hrun
  have hans := (h m (reach_of_run hm)).2
  rw [hlog] at hans
  cases hans

/-- `A` waits again only after its wake-up has been handled. -/
def waitAgainLater : List Act :=
  [.newEventHdl "e" none,
   .appendTask none "A" 0 true, .enter, .wait 1, .yielded,
   .appendTask none "B" 1 true, .enter, .send 1, .awaitCallback false, .yielded,
   .loop, .loop, .enter, .wait 1, .yielded, .loop, .loop,
   .fire 0, .enter, .send 1, .yield .returned, .yielded, .loop, .loop]

theorem atMostOncePerWait_of_waitAgainLater :
    ∃ m, runChecked Machine.step (fun m a => m.prompt a = true) (Machine.init .normal)
        waitAgainLater = some m ∧
      .wake 1 ⟨1, 1⟩ ∈ m.log ∧ m.AtMostOncePerWait := by
  have hrun : (runChecked Machine.step (fun m a => m.prompt a = true) (Machine.init .normal)
      waitAgainLater).map (fun m => decide (.wake 1 ⟨1, 1⟩ ∈ m.log)) = some true := by
    decide +kernel
  obtain ⟨m, hm, hwake⟩ := Option.map_eq_some_iff.mp hrun
  exact ⟨m, hm, of_decide_eq_true hwake, atMostOncePerWait_of_prompt (reach_of_runChecked hm)⟩

/-! ### No wake-up is lost -/

/-- A call of `schedule_task`. -/
def Frame.isTask : Frame → Bool
  | .pass .. => false
  | _ => true

/-- Some call of `schedule_task` is in progress. -/
def Machine.inSchedule (m : Machine) : Bool := m.stack.any Frame.isTask

/-- The flag is down, nothing is pending, and whoever was waiting at a send has since been passed
to `schedule_task` or taken off the list by `remove_task`. -/
structure Machine.Quiet (m : Machine) : Prop where
  flag : m.sched.hasWakeupEvent = false
  pending : m.sched.pendingWakeupEvent = []
  woken : ∀ later e ws earlier, m.log = later ++ .send e ws :: earlier →
    ∀ w ∈ ws, .wake e w ∈ later ∨ .unwait e w ∈ later

/-- The event id that `new_event_hdl` uses, if it gets one. -/
def Scheduler.eventIdFor (s : Scheduler) : Option EventID → Option EventID
  | some e => some e
  | none => s.allocEventId.map Prod.fst

/-- `new_event_hdl` is not called for an id whose event has an unhandled send and tasks waiting;
and no outermost `schedule_task` returns on the removal flag while `has_wakeup_event` is set. -/
def Machine.keepsWakeups (m : Machine) : Act → Bool
  | .newEventHdl _ user =>
    match m.sched.eventIdFor user with
    | some e => decide (e ∈ m.unhandled → m.sched.waiting e = [])
    | none => true
  | .enter =>
    match m.stack with
    | .call id :: rest => rest.any Frame.isTask || !m.sched.hasWakeupEvent ||
        decide (id ∉ m.sched.userRemovalTasksSet)
    | _ => true
  | _ => true

lemma ChosenEvent.eventIdFor {s s' : Scheduler} {user : Option EventID} {e : EventID}
    (h : ChosenEvent s user e s') : s.eventIdFor user = some e := by
  cases h with
  | given => rfl
  | fresh _ _ halloc => simp [Scheduler.eventIdFor, halloc]

lemma BusAct.keepsOwed (h : m.keepsWakeups a = true) {b : EventBus.Act EventID Waiter}
    (hb : BusAct m a b) : EventBus.KeepsOwed m.bus b := by
  cases hb with
  | newEventHdl name user e s hc =>
    simp only [Machine.keepsWakeups, hc.eventIdFor, decide_eq_true_eq] at h
    exact h
  | wait | insertWaiter | send | removeTask | yielded | loop => trivial

/-- The outermost `schedule_task` returns in this step. -/
def Returns (m m' : Machine) : Prop := m.inSchedule = true ∧ m'.inSchedule = false

lemma Machine.bus_loops_of_not_inSchedule (h : m.inSchedule = false) : m.bus.loops = [] := by
  refine List.filterMap_eq_nil_iff.mpr fun f hf => ?_
  have hpass := List.any_eq_false.mp h f hf
  cases f with
  | pass => rfl
  | call | body | resumed | wakeup => exact absurd rfl hpass

/-- An outermost `schedule_task` returns after its wake-up loop, or without one because the flag
is down. -/
lemma Rule.flag_of_returns (hr : Rule m a m') (hret : Returns m m') (hd : FlagDown m)
    (hok : m.keepsWakeups a = true) (hf : m'.fault = none) : m'.sched.hasWakeupEvent = false := by
  obtain ⟨hin, hout⟩ := hret
  cases hr with
  | fault hf' | removeFault _ hf' | resumeFault _ _ _ _ _ _ _ _ _ hf' => simp [hf] at hf'
  | skip id rest hs hnr hset =>
    have hrest : rest.any Frame.isTask = false := hout
    simp only [Machine.keepsWakeups, hs, hrest, hset, not_true_eq_false, decide_false, Bool.or_false,
      Bool.false_or, Bool.not_eq_true'] at hok
    exact (hasWakeupEvent_congr (keeps_skip m.sched id).eventTables).trans hok
  | yieldedReturn id th oldCurr y rest hs hy hflag =>
    exact (hasWakeupEvent_congr (settle_eventTables ..)).trans hflag
  | loopClose next rest hs => exact hd (by rw [hs]; trivial)
  | resume | yieldedLoop | loopWake | loopNext | loopTake | pick | fire | restart | wait
  | awaitCallback | yield =>
    simp [Machine.inSchedule, Frame.isTask, Machine.call, Machine.coroYield] at hout
  | startPass kind hs => simp [Machine.inSchedule, hs] at hin
  | pickFired _ _ _ _ rest hs | passReturn _ _ _ _ rest hs | endPass _ _ _ rest hs =>
    have hsame : m.inSchedule = rest.any Frame.isTask := by
      simp [Machine.inSchedule, hs, Frame.isTask]
    rw [hsame] at hin
    simp [Machine.inSchedule, hin] at hout
  | append user id name body startNow s =>
    rcases startTask_stack (Machine.installTask { m with sched := s } id name body)
      id startNow with heq | heq
    · rw [Machine.inSchedule, heq] at hout
      exact absurd (hin.symm.trans hout) (by simp)
    · rw [Machine.inSchedule, heq] at hout
      simp [Frame.isTask] at hout
  | newEventHdl | removeEvent | send | tryRunning | remove | removeWaiting | insertWaiter
  | awaitPosedge | awaitNegedge => exact absurd (hin.symm.trans hout) (by simp)

/-- In a run whose steps keep wake-ups, nothing is owed when an outermost `schedule_task`
returns. -/
theorem quiet_of_returns
    (h : Machine.Reached mode (fun m a => m.keepsWakeups a = true) m)
    (hok : m.keepsWakeups a = true) (hs : m.step a = some m') (hf : m'.fault = none)
    (hret : Returns m m') : m'.Quiet := by
  obtain ⟨hm, hr⟩ := Rule.of_step hs
  have hflag := hr.flag_of_returns hret (flagDown_of_reached h hm) hok hf
  obtain ⟨b, hb, hlog, heq⟩ := bus_of_reached (G := EventBus.KeepsOwed)
    (fun m a b _ _ hok hb => hb.keepsOwed hok) (h.tail hok hs)
  obtain rfl := heq hf
  have hcov := EventBus.covered_of_reach hb
  have hloops := Machine.bus_loops_of_not_inSchedule hret.2
  refine ⟨hflag, hcov.pending_eq_nil hflag hloops, fun later e ws earlier hsplit w hw => ?_⟩
  have hsplit' : m'.bus.log =
      later.filterMap Ev.entry? ++ .send e ws :: earlier.filterMap Ev.entry? := by
    show m'.log.filterMap Ev.entry? = _
    rw [hsplit, List.filterMap_append]
    rfl
  exact (hcov.handed_or_dropped hflag hloops hsplit' hw).imp mem_filterMap_entryOf.mp
    mem_filterMap_entryOf.mp

/-- `A: e:wait()` and `B: e:send(); ("e"):ehdl(7)`, where `e` has the id 7: the second handle of
the event throws away its waiting list. Without the last step. -/
def handleMadeAgain : List Act :=
  [.newEventHdl "e" (some 7),
   .appendTask none "A" 0 true, .enter, .wait 7, .yielded,
   .appendTask none "B" 1 true, .enter, .send 7, .newEventHdl "e" (some 7), .yield .noop, .yielded,
   .loop, .loop]

theorem not_quiet_of_returns :
    ¬ ∀ m a m', Machine.Reached .normal Unguarded m → m.step a = some m' → m'.fault = none →
      Returns m m' → m'.Quiet := by
  intro h
  have hrun : (run Machine.step (Machine.init .normal) handleMadeAgain).bind (fun m =>
      (m.step .loop).map fun m' => (m'.fault, m.inSchedule, m'.inSchedule, m'.log)) =
      some (none, true, false, [.send 7 [⟨1, 0⟩], .resume 2 1 false, .create 2 1,
        .register 7 ⟨1, 0⟩, .resume 1 0 false, .create 1 0]) := by decide +kernel
  obtain ⟨m, hm, hrest⟩ := Option.bind_eq_some_iff.mp hrun
  obtain ⟨m', hs, heq⟩ := Option.map_eq_some_iff.mp hrest
  simp only [Prod.mk.injEq] at heq
  obtain ⟨hf, hin, hout, hlog⟩ := heq
  have hquiet := h m .loop m' (reach_of_run hm) hs hf ⟨hin, hout⟩
  simpa using hquiet.woken [] 7 [⟨1, 0⟩] _ hlog ⟨1, 0⟩ (by simp)

/-- `A: e:wait()` and `B: e:send()`, without the last step. -/
def sendToWaiting : List Act :=
  [.newEventHdl "e" (some 7),
   .appendTask none "A" 0 true, .enter, .wait 7, .yielded,
   .appendTask none "B" 1 true, .enter, .send 7, .yield .noop, .yielded,
   .loop, .loop, .enter, .yield .returned, .yielded, .loop]

theorem quiet_of_sendToWaiting :
    ∃ m m', runChecked Machine.step (fun m a => m.keepsWakeups a = true) (Machine.init .normal)
        sendToWaiting = some m ∧
      m.step .loop = some m' ∧ Returns m m' ∧ m'.Quiet := by
  have hrun : (runChecked Machine.step (fun m a => m.keepsWakeups a = true) (Machine.init .normal)
      sendToWaiting).bind (fun m => (m.step .loop).map fun m' =>
        (m.keepsWakeups .loop, m'.fault, m.inSchedule, m'.inSchedule)) =
      some (true, none, true, false) := by decide +kernel
  obtain ⟨m, hm, hrest⟩ := Option.bind_eq_some_iff.mp hrun
  obtain ⟨m', hs, heq⟩ := Option.map_eq_some_iff.mp hrest
  simp only [Prod.mk.injEq] at heq
  obtain ⟨hok, hf, hin, hout⟩ := heq
  exact ⟨m, m', hm, hs, ⟨hin, hout⟩,
    quiet_of_returns (reach_of_runChecked hm) hok hs hf ⟨hin, hout⟩⟩

end Verilua
