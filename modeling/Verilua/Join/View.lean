import Verilua.Join.Basic
import Verilua.Scheduler.Wakeup

/-!
# What the library sees of the scheduler

A `View` is the part of a machine on which `join` depends: the event bus, the names of the events,
the bodies on the stack and the callbacks. For every run of the machine that a step makes, the view
after it is given in terms of the view before.
-/

namespace Verilua.Join

open TransitionSystem

variable {m m' : Machine} {a : Verilua.Act} {as : List Verilua.Act} {id : TaskID} {e : EventID}
  {rest : List Frame}

/-! ### Runs of the machine -/

/-- What a step does to the scheduler is made of these actions. -/
def plain : Verilua.Act → Bool
  | .newEventHdl _ none | .appendTask none _ _ true | .awaitCallback false => true
  | .removeEvent _ | .send _ | .wait _ | .insertWaiter _ | .yield _ | .fire _ => true
  | .enter | .yielded | .loop => true
  | _ => false

/-- The machines that the library reaches from `m`. -/
inductive Later (m : Machine) : Machine → Prop
  | refl : Later m m
  | step {m₁ m₂ : Machine} {a : Verilua.Act} (h : Later m m₁) (hplain : plain a = true)
      (hs : m₁.step a = some m₂) : Later m m₂
  | drop {m₁ : Machine} (h : Later m m₁) (id : TaskID) (e : EventID) :
      Later m (dropWaiter id m₁ e)

abbrev Plain (m : Machine) : Prop := Later (.init .normal) m

lemma Later.trans {m₁ m₂ : Machine} (h : Later m m₁) (h' : Later m₁ m₂) : Later m m₂ := by
  induction h' with
  | refl => exact h
  | step _ hplain hs ih => exact ih.step hplain hs
  | drop _ id e ih => exact ih.drop id e

lemma Later.exec {m₁ : Machine} (h : Later m m₁) (hs : exec m₁ as = some m')
    (hplain : as.all plain = true) : Later m m' := by
  induction as generalizing m₁ with
  | nil =>
    cases hs
    exact h
  | cons a as ih =>
    rw [List.all_cons, Bool.and_eq_true] at hplain
    unfold Join.exec at hs
    split_ifs at hs
    · cases hs
      exact h
    · obtain ⟨m₂, hstep, hrest⟩ := Option.bind_eq_some_iff.mp hs
      exact ih (h.step hplain.1 hstep) hrest hplain.2

lemma Later.drops {m₁ : Machine} (h : Later m m₁) (id : TaskID) (es : List EventID) :
    Later m (es.foldl (dropWaiter id) m₁) := by
  induction es generalizing m₁ with
  | nil => exact h
  | cons e es ih => exact ih (h.drop id e)

lemma exec_cons (h : exec m (a :: as) = some m') (hf : m.fault = none) (hf' : m'.fault = none) :
    ∃ m₁, Rule m a m₁ ∧ m₁.fault = none ∧ exec m₁ as = some m' := by
  rw [exec, hf, Option.isSome_none, if_neg Bool.false_ne_true] at h
  obtain ⟨m₁, hs, hrest⟩ := Option.bind_eq_some_iff.mp h
  refine ⟨m₁, (Rule.of_step hs).2, ?_, hrest⟩
  by_contra hf₁
  cases as with
  | nil =>
    cases hrest
    exact hf₁ hf'
  | cons a as =>
    rw [exec, if_pos (Option.isSome_iff_ne_none.mpr hf₁)] at hrest
    cases hrest
    exact hf₁ hf'

/-- Nothing is removed, callbacks run once, and the events have got their ids from the scheduler. -/
structure Clean (m : Machine) : Prop where
  noRemoval : m.sched.userRemovalTasksSet = ∅
  oneShot : ∀ cb ∈ m.callbacks, cb.always = false
  listed : ∀ e, (m.sched.eventTaskIdListMap.lookup e).isSome → e < m.sched.nextEventId

lemma settle_userRemovalTasksSet (s : Scheduler) (mode : Mode) (id oldCurr : TaskID) (y : Yielded) :
    (s.settle mode id oldCurr y).userRemovalTasksSet = s.userRemovalTasksSet := by
  unfold Scheduler.settle Scheduler.removeTask'
  dsimp only
  split_ifs <;> rfl

lemma startTask_callbacks (m : Machine) (id : TaskID) (startNow : Bool) :
    (m.startTask id startNow).callbacks = m.callbacks := by
  unfold Machine.startTask
  split_ifs <;> rfl

lemma startTask_userRemovalTasksSet (m : Machine) (id : TaskID) (startNow : Bool) :
    (m.startTask id startNow).sched.userRemovalTasksSet = m.sched.userRemovalTasksSet := by
  unfold Machine.startTask
  split_ifs <;> rfl

lemma startTask_eventTables (m : Machine) (id : TaskID) (startNow : Bool) :
    (m.startTask id startNow).sched.eventTables = m.sched.eventTables := by
  unfold Machine.startTask
  split_ifs <;> rfl

namespace Clean

lemma clearUserRemoval_eq {s : Scheduler} (h : s.userRemovalTasksSet = ∅) (id : TaskID) :
    s.clearUserRemoval id = s := by
  simp [Scheduler.clearUserRemoval, h]

/-- The ids of the events are below `next_event_id`. -/
lemma of_eventTables (h : Clean m) (hset : m'.sched.userRemovalTasksSet = ∅)
    (hcb : ∀ cb ∈ m'.callbacks, cb.always = false)
    (hmap : m'.sched.eventTaskIdListMap = m.sched.eventTaskIdListMap)
    (hnext : m'.sched.nextEventId = m.sched.nextEventId) : Clean m' := by
  refine ⟨hset, hcb, fun e he => ?_⟩
  rw [hmap] at he
  rw [hnext]
  exact h.listed e he

lemma insert_listed (h : Clean m) {l l' : List Waiter}
    (hl : m.sched.eventTaskIdListMap.lookup e = some l) (e' : EventID)
    (he' : ((m.sched.eventTaskIdListMap.insert e l').lookup e').isSome) :
    e' < m.sched.nextEventId := by
  by_cases heq : e' = e
  · subst heq
    exact h.listed e' (by rw [hl]; rfl)
  · rw [Finmap.lookup_insert_of_ne _ heq] at he'
    exact h.listed e' he'

lemma step (h : Clean m) (hr : Rule m a m') (hplain : plain a = true) (hf : m'.fault = none) :
    Clean m' := by
  cases hr with
  | fault hf' | resumeFault _ _ _ _ _ _ _ _ _ hf' => simp [hf] at hf'
  | skip id rest hs hnr hset => simp [h.noRemoval] at hset
  | resume id rest cnt th t hs =>
    have ht := (keeps_drainPendingRemoval m.sched).eventTables
    refine h.of_eventTables ?_ h.oneShot (congrArg EventTables.eventTaskIdListMap ht)
      (congrArg EventTables.nextEventId ht)
    simpa using h.noRemoval
  | yieldedLoop id th oldCurr y rest hs | yieldedReturn id th oldCurr y rest hs =>
    have ht := settle_eventTables m.sched m.mode id oldCurr y
    exact h.of_eventTables ((settle_userRemovalTasksSet ..).trans h.noRemoval) h.oneShot
      (congrArg EventTables.eventTaskIdListMap ht) (congrArg EventTables.nextEventId ht)
  | loopTake next e l rest hs he hl => exact ⟨h.noRemoval, h.oneShot, h.insert_listed hl⟩
  | wait e l id th oldCurr rest hs hl => exact ⟨h.noRemoval, h.oneShot, h.insert_listed hl⟩
  | insertWaiter e l id th oldCurr rest hs hl => exact ⟨h.noRemoval, h.oneShot, h.insert_listed hl⟩
  | fire n cb hs hcb =>
    refine ⟨h.noRemoval, fun cb' hcb' => h.oneShot cb' ?_, h.listed⟩
    dsimp only at hcb'
    split_ifs at hcb'
    · exact hcb'
    · exact List.mem_of_mem_eraseIdx hcb'
  | awaitCallback always id th oldCurr rest hs =>
    refine ⟨h.noRemoval, fun cb hcb => ?_, h.listed⟩
    rcases List.mem_append.mp hcb with hcb | hcb
    · exact h.oneShot cb hcb
    · rw [List.mem_singleton.mp hcb]
      cases always with
      | false => rfl
      | true => simp [plain] at hplain
  | newEventHdl name user e s hs hc =>
    cases hc with
    | given => simp [plain] at hplain
    | fresh _ _ halloc =>
      obtain ⟨-, hle, -, rfl⟩ := Scheduler.allocEventId_eq_some halloc
      refine ⟨h.noRemoval, h.oneShot, fun e' he' => ?_⟩
      by_cases heq : e' = e
      · subst heq
        exact Nat.lt_succ_self e'
      · simp only [Scheduler.installEvent, Finmap.lookup_insert_of_ne _ heq] at he'
        exact (h.listed e' he').trans_le (Nat.le_succ_of_le hle)
  | append user id name body startNow s hs hc =>
    have hset : s.userRemovalTasksSet = ∅ := by
      cases hc with
      | given => exact h.noRemoval
      | fresh _ _ halloc =>
        rw [(Scheduler.allocTaskId_eq_some halloc).2.2.2]
        exact h.noRemoval
    have ht := (startTask_eventTables (Machine.installTask { m with sched := s } id name body) id
      startNow).trans ((keeps_clearUserRemoval s id).eventTables.trans hc.eventTables)
    refine h.of_eventTables ?_ ?_ (congrArg EventTables.eventTaskIdListMap ht)
      (congrArg EventTables.nextEventId ht)
    · rw [startTask_userRemovalTasksSet]
      simpa [Machine.installTask, Machine.coroCreate, clearUserRemoval_eq hset] using hset
    · rw [startTask_callbacks]
      exact h.oneShot
  | restart a id name body s hs hc => cases hc <;> simp [plain] at hplain
  | removeFault | tryRunning | remove | removeWaiting | startPass | pickFired | pick | passReturn
  | endPass | awaitPosedge | awaitNegedge => simp [plain] at hplain
  | loopWake | loopNext | loopClose | removeEvent | send | yield =>
    exact ⟨h.noRemoval, h.oneShot, h.listed⟩

end Clean

/-- No wake-up is lost in the runs that the library makes. -/
lemma keepsWakeups_of_plain (h : Clean m) (hplain : plain a = true) : m.keepsWakeups a = true := by
  cases a with
  | newEventHdl name user =>
    cases user with
    | some e => simp [plain] at hplain
    | none =>
      unfold Machine.keepsWakeups Scheduler.eventIdFor
      cases halloc : m.sched.allocEventId with
      | none => rfl
      | some p =>
        obtain ⟨-, hle, -, -⟩ := Scheduler.allocEventId_eq_some (e := p.1) halloc
        simp only [Option.map_some, decide_eq_true_eq]
        intro _
        cases hl : m.sched.eventTaskIdListMap.lookup p.1 with
        | none => simp [Scheduler.waiting, hl]
        | some l => exact absurd (h.listed p.1 (by rw [hl]; rfl)) (not_lt.mpr hle)
  | enter =>
    unfold Machine.keepsWakeups
    dsimp only
    split <;> simp [h.noRemoval]
  | _ => rfl

lemma dropWaiter_cases (id : TaskID) (m : Machine) (e : EventID) :
    (∃ before w after, m.sched.eventTaskIdListMap.lookup e = some (before ++ w :: after) ∧
      w.taskId = id ∧ (∀ x ∈ after, x.taskId ≠ id) ∧ dropWaiter id m e = { m with
        sched := { m.sched with
          eventTaskIdListMap := m.sched.eventTaskIdListMap.insert e (before ++ after) }
        log := .unwait e w :: m.log }) ∨
      dropWaiter id m e = m ∧ ∀ w ∈ m.sched.waiting e, w.taskId ≠ id := by
  unfold dropWaiter
  split
  · next hl =>
    refine .inr ⟨rfl, fun w hw => ?_⟩
    simp [Scheduler.waiting, hl] at hw
  · next l hl =>
    split
    · next hnone =>
      refine .inr ⟨rfl, fun w hw => ?_⟩
      have hw' : w ∈ l := by simpa [Scheduler.waiting, hl] using hw
      simpa using List.find?_eq_none.mp hnone w (List.mem_reverse.mpr hw')
    · next w hw =>
      obtain ⟨hid, as, bs, hsplit, has⟩ := List.find?_eq_some_iff_append.mp hw
      have hrev : l = bs.reverse ++ w :: as.reverse := by
        rw [← List.reverse_reverse l, hsplit]
        simp
      have herase : (l.reverse.eraseP fun w => w.taskId = id).reverse =
          bs.reverse ++ as.reverse := by
        rw [hsplit, List.eraseP_append_right _ (fun x hx => by simpa using has x hx),
          List.eraseP_cons_of_pos (p := fun w : Waiter => decide (w.taskId = id)) hid,
          List.reverse_append]
      refine .inl ⟨bs.reverse, w, as.reverse, hl.trans (congrArg some hrev), by simpa using hid,
        fun x hx => ?_, by rw [herase]⟩
      simpa using has x (List.mem_reverse.mp hx)

/-- What is known of a machine between two steps of the library. -/
structure Steady (m : Machine) : Prop where
  mode : m.mode = .normal
  shaped : Shaped m.stack
  flagDown : FlagDown m
  currentTask : CurrentTask m
  clean : Clean m
  fresh : FreshWaits m
  bus : Reach EventBus.Bus.step (fun b a => EventBus.Fresh b a ∧ EventBus.KeepsOwed b a)
    EventBus.Bus.init m.bus

lemma Steady.step (h : Steady m) (hr : Rule m a m') (hplain : plain a = true)
    (hf : m'.fault = none) : Steady m' := by
  refine ⟨(hr.mode_eq hf).trans h.mode, h.shaped.step hr hf, h.flagDown.step h.shaped hr hf,
    h.currentTask.step hr hf, h.clean.step hr hplain hf, h.fresh.step hr hf, ?_⟩
  rcases hr.refines h.flagDown hf with hsame | ⟨b, hb, hstep⟩
  · rw [hsame]
    exact h.bus
  · have hkeeps := hb.keepsOwed (keepsWakeups_of_plain h.clean hplain)
    exact h.bus.tail ⟨hb.fresh h.fresh, hkeeps⟩ hstep

lemma dropWaiter_refines (id : TaskID) (m : Machine) (e : EventID) :
    dropWaiter id m e = m ∨ ∃ i, m.bus.step (.drop e i) = some (dropWaiter id m e).bus := by
  rcases dropWaiter_cases id m e with ⟨before, w, after, hl, -, -, heq⟩ | ⟨heq, -⟩
  · rw [heq]
    refine .inr ⟨before.length, ?_⟩
    have hwait : m.bus.waiting e = before ++ w :: after := waiting_of_eq_some hl
    simp only [EventBus.Bus.step, hwait]
    rw [List.getElem?_append_right (Nat.le_refl _), Nat.sub_self]
    refine congrArg some (EventBus.Bus.ext ?_ rfl rfl rfl rfl rfl)
    rw [List.eraseIdx_append_of_length_le (Nat.le_refl _), Nat.sub_self]
    exact (waiting_insert m.sched.eventTables e _).symm
  · exact .inl heq

lemma Steady.drop (h : Steady m) (id : TaskID) (e : EventID) : Steady (dropWaiter id m e) := by
  have hbus : Reach EventBus.Bus.step (fun b a => EventBus.Fresh b a ∧ EventBus.KeepsOwed b a)
      EventBus.Bus.init (dropWaiter id m e).bus := by
    rcases dropWaiter_refines id m e with heq | ⟨i, hstep⟩
    · rw [heq]
      exact h.bus
    · exact h.bus.tail (a := .drop e i) ⟨trivial, trivial⟩ hstep
  rcases dropWaiter_cases id m e with ⟨before, w, after, hl, -, -, heq⟩ | ⟨heq, -⟩
  · refine ⟨?_, ?_, ?_, ?_, ?_, ?_, hbus⟩
    all_goals rw [heq]
    · exact h.mode
    · exact h.shaped
    · exact h.flagDown
    · exact ⟨h.currentTask.curr, h.currentTask.restores⟩
    · exact ⟨h.clean.noRemoval, h.clean.oneShot, h.clean.insert_listed hl⟩
    · exact h.fresh.mono rfl fun e' w' hw => by simpa using hw
  · rw [heq]
    exact h

lemma dropWaiter_nextWaitNo (id : TaskID) (m : Machine) (e : EventID) :
    (dropWaiter id m e).nextWaitNo = m.nextWaitNo := by
  rcases dropWaiter_cases id m e with ⟨before, w, after, -, -, -, heq⟩ | ⟨heq, -⟩ <;> rw [heq]

lemma dropWaiter_fault (id : TaskID) (m : Machine) (e : EventID) :
    (dropWaiter id m e).fault = m.fault := by
  rcases dropWaiter_cases id m e with ⟨before, w, after, -, -, -, heq⟩ | ⟨heq, -⟩ <;> rw [heq]

lemma dropWaiters_fault (id : TaskID) (m : Machine) (es : List EventID) :
    (es.foldl (dropWaiter id) m).fault = m.fault := by
  induction es generalizing m with
  | nil => rfl
  | cons e es ih => exact (ih _).trans (dropWaiter_fault id m e)

lemma Steady.later (h : Steady m) (hl : Later m m') : m'.fault = none → Steady m' := by
  induction hl with
  | refl => exact fun _ => h
  | step _ hplain hs ih =>
    intro hf
    obtain ⟨hm, hr⟩ := Rule.of_step hs
    exact (ih hm).step hr hplain hf
  | drop _ id e ih => exact fun hf => (ih (dropWaiter_fault id _ e ▸ hf)).drop id e

lemma steady_init : Steady (.init .normal) := by
  refine ⟨rfl, trivial, fun hl => hl.elim, ⟨rfl, trivial⟩, ⟨rfl, ?_, ?_⟩, ?_, .refl⟩
  · exact fun _ hcb => nomatch hcb
  · exact fun e he => by simp [Machine.init, Scheduler.init] at he
  · exact fun e w hw => by simp [Machine.init] at hw

lemma steady_of_plain (h : Plain m) : m.fault = none → Steady m := steady_init.later h

lemma Steady.covered (h : Steady m) : EventBus.Covered m.bus :=
  EventBus.covered_of_reach (h.bus.mono fun _ _ h => h.2)

lemma Steady.once (h : Steady m) : EventBus.Once m.bus :=
  EventBus.once_of_reach (h.bus.mono fun _ _ h => h.1)

lemma Steady.waitNo_lt (h : Steady m) {w : Waiter} (hw : .wake e w ∈ m.log) :
    w.waitNo < m.nextWaitNo := by
  have hmem : .hand e w ∈ m.bus.log := List.mem_filterMap.mpr ⟨_, hw, rfl⟩
  obtain ⟨ev, hev, heq⟩ := List.mem_filterMap.mp (h.once.handed_registered e w hmem)
  cases ev with
  | register e' w' =>
    cases heq
    exact h.fresh _ _ hev
  | _ => cases heq

/-! ### Views -/

def taken? : Frame → Option (EventID × List TaskID)
  | .wakeup _ (some (e, ws)) => some (e, ws.map Waiter.taskId)
  | _ => none

def body? : Frame → Option TaskID
  | .body id _ _ => some id
  | _ => none

def topBody : List Frame → Option TaskID
  | .body id _ _ :: _ => some id
  | _ => none

def woken? : Verilua.Ev → Option (EventID × Waiter)
  | .wake e w => some (e, w)
  | _ => none

/-- The waiting lists, the sends with the number of those taken, what the wake-up loops have taken
and not passed on, the tasks whose bodies are on the stack with the one that runs, the tables, and
the numbers of the places on the lists with what has been passed on. -/
@[ext]
structure View where
  waiting : EventID → List TaskID
  pending : List EventID
  handled : Nat
  taken : List (EventID × List TaskID)
  bodies : List TaskID
  top : Option TaskID
  named : EventID → Bool
  listed : EventID → Bool
  nextEventId : EventID
  callbacks : List TaskID
  known : TaskID → Bool
  nextWaitNo : Nat
  wakes : List (EventID × Waiter)

def view (m : Machine) : View where
  waiting := fun e => (m.sched.waiting e).map Waiter.taskId
  pending := m.sched.pendingWakeupEvent
  handled := m.handled
  taken := m.stack.filterMap taken?
  bodies := m.stack.filterMap body?
  top := topBody m.stack
  named := fun e => (m.sched.eventNameMap e).isSome
  listed := fun e => (m.sched.eventTaskIdListMap.lookup e).isSome
  nextEventId := m.sched.nextEventId
  callbacks := m.callbacks.map Callback.taskId
  known := fun id => (m.sched.taskNameMapArchived id).isSome
  nextWaitNo := m.nextWaitNo
  wakes := m.log.filterMap woken?

lemma mem_wakes {w : Waiter} : (e, w) ∈ (view m).wakes ↔ .wake e w ∈ m.log := by
  constructor
  · intro hw
    obtain ⟨ev, hev, heq⟩ := List.mem_filterMap.mp hw
    cases ev with
    | wake e' w' =>
      cases heq
      exact hev
    | _ => cases heq
  · exact fun hw => List.mem_filterMap.mpr ⟨_, hw, rfl⟩

def View.withStack (v : View) (stack : List Frame) : View := { v with
  taken := stack.filterMap taken?
  bodies := stack.filterMap body?
  top := topBody stack }

lemma view_withStack (hmap : m'.sched.eventTaskIdListMap = m.sched.eventTaskIdListMap)
    (hname : m'.sched.eventNameMap = m.sched.eventNameMap)
    (hnext : m'.sched.nextEventId = m.sched.nextEventId)
    (hpending : m'.sched.pendingWakeupEvent = m.sched.pendingWakeupEvent)
    (harchived : m'.sched.taskNameMapArchived = m.sched.taskNameMapArchived)
    (hhandled : m'.handled = m.handled) (hcb : m'.callbacks = m.callbacks)
    (hno : m'.nextWaitNo = m.nextWaitNo)
    (hlog : m'.log.filterMap woken? = m.log.filterMap woken?) :
    view m' = (view m).withStack m'.stack := by
  simp only [view, View.withStack, Scheduler.waiting, hmap, hname, hnext, hpending, harchived,
    hhandled, hcb, hno, hlog]

lemma view_enter (hr : Rule m .enter m') (hs : m.stack = .call id :: rest) (hc : Clean m)
    (hf : m'.fault = none) :
    view m' = { view m with bodies := id :: (view m).bodies, top := some id } := by
  cases hr with
  | fault hf' | resumeFault _ _ _ _ _ _ _ _ _ hf' => simp [hf] at hf'
  | skip _ _ _ _ hset => simp [hc.noRemoval] at hset
  | restart _ _ _ _ _ _ hcl => nomatch hcl
  | resume id' rest' cnt th t hs' =>
    rw [hs] at hs'
    cases hs'
    have hk := keeps_drainPendingRemoval m.sched
    refine (view_withStack (m := m) ?_ ?_ ?_ ?_ ?_ ?_ ?_ ?_ ?_).trans ?_
    · exact congrArg EventTables.eventTaskIdListMap hk.eventTables
    · exact congrArg EventTables.eventNameMap hk.eventTables
    · exact congrArg EventTables.nextEventId hk.eventTables
    · exact congrArg EventTables.pendingWakeupEvent hk.eventTables
    · exact hk.taskNameMapArchived
    · rfl
    · rfl
    · rfl
    · rfl
    · simp only [view, hs]
      rfl

lemma enter_keeps (hr : Rule m .enter m') (hc : Clean m) (hf : m'.fault = none) :
    m'.sched.eventTables = m.sched.eventTables ∧ m'.nextWaitNo = m.nextWaitNo := by
  cases hr with
  | fault hf' | resumeFault _ _ _ _ _ _ _ _ _ hf' => simp [hf] at hf'
  | skip _ _ _ _ hset => simp [hc.noRemoval] at hset
  | restart _ _ _ _ _ _ hcl => nomatch hcl
  | resume => exact ⟨(keeps_drainPendingRemoval _).eventTables, rfl⟩

lemma settle_archived (s : Scheduler) (mode : Mode) (id oldCurr : TaskID) (y : Yielded) :
    (s.settle mode id oldCurr y).taskNameMapArchived = s.taskNameMapArchived := by
  unfold Scheduler.settle Scheduler.removeTask'
  dsimp only
  split_ifs <;> rfl

lemma view_yielded {th : ThreadID} {oldCurr : TaskID} {y : Yielded} (hr : Rule m .yielded m')
    (hs : m.stack = .resumed id th oldCurr y :: rest) (hf : m'.fault = none) :
    view m' = { view m with top := topBody m'.stack } := by
  cases hr with
  | fault hf' => simp [hf] at hf'
  | restart _ _ _ _ _ _ hcl => nomatch hcl
  | yieldedLoop id' th' oldCurr' y' rest' hs' | yieldedReturn id' th' oldCurr' y' rest' hs' =>
    rw [hs] at hs'
    cases hs'
    have ht := settle_eventTables m.sched m.mode id oldCurr y
    refine (view_withStack (m := m) ?_ ?_ ?_ ?_ ?_ ?_ ?_ ?_ ?_).trans ?_
    · exact congrArg EventTables.eventTaskIdListMap ht
    · exact congrArg EventTables.eventNameMap ht
    · exact congrArg EventTables.nextEventId ht
    · exact congrArg EventTables.pendingWakeupEvent ht
    · exact settle_archived ..
    · rfl
    · rfl
    · rfl
    · dsimp only
      split_ifs <;> rfl
    · simp only [view, hs]
      rfl

lemma view_suspend {th : ThreadID} {oldCurr : TaskID} {y : Yielded}
    (hs : m.stack = .resumed id th oldCurr y :: rest) (h : exec m [.yielded] = some m')
    (hm : m.fault = none) (hf : m'.fault = none) :
    view m' = { view m with top := topBody m'.stack } := by
  obtain ⟨m₁, hr, hf₁, hlast⟩ := exec_cons h hm hf
  cases hlast
  exact view_yielded hr hs hf

lemma view_yield {th : ThreadID} {oldCurr : TaskID} {y : Yielded}
    (hs : m.stack = .body id th oldCurr :: rest) (h : exec m [.yield y, .yielded] = some m')
    (hm : m.fault = none) (hf : m'.fault = none) :
    view m' = { view m with bodies := (view m).bodies.tail, top := topBody m'.stack } := by
  obtain ⟨m₁, hr, hf₁, hlast⟩ := exec_cons h hm hf
  cases hr with
  | fault hf' => simp [hf₁] at hf'
  | restart _ _ _ _ _ _ hcl => nomatch hcl
  | yield y id' th' oldCurr' rest' hs' =>
    rw [hs] at hs'
    cases hs'
    rw [view_suspend rfl hlast hm hf]
    simp only [view, Machine.coroYield, hs]
    rfl

lemma view_await {th : ThreadID} {oldCurr : TaskID} (hs : m.stack = .body id th oldCurr :: rest)
    (hcurr : m.sched.currTaskId = id) (h : exec m [.awaitCallback false, .yielded] = some m')
    (hm : m.fault = none) (hf : m'.fault = none) :
    view m' = { view m with
      callbacks := (view m).callbacks ++ [id]
      bodies := (view m).bodies.tail
      top := topBody m'.stack } := by
  obtain ⟨m₁, hr, hf₁, hlast⟩ := exec_cons h hm hf
  cases hr with
  | fault hf' => simp [hf₁] at hf'
  | restart _ _ _ _ _ _ hcl => nomatch hcl
  | awaitCallback always id' th' oldCurr' rest' hs' =>
    rw [hs] at hs'
    cases hs'
    rw [view_suspend rfl hlast hm hf]
    simp only [view, Machine.coroYield, hs, List.map_append, List.map_singleton, hcurr]
    rfl

lemma waiting_insert_map {s : Scheduler} (e e' : EventID) (l : List Waiter) :
    ((((s.eventTaskIdListMap.insert e l).lookup e').getD []).map Waiter.taskId) =
      Function.update (fun e => (s.waiting e).map Waiter.taskId) e (l.map Waiter.taskId) e' := by
  by_cases he : e' = e
  · subst he
    simp
  · simp [Finmap.lookup_insert_of_ne _ he, he, Scheduler.waiting]

lemma listed_insert {s : Scheduler} {l' : List Waiter}
    (hl : s.eventTaskIdListMap.lookup e = some l') (e' : EventID) (l : List Waiter) :
    ((s.eventTaskIdListMap.insert e l).lookup e').isSome =
      (s.eventTaskIdListMap.lookup e').isSome := by
  by_cases he : e' = e
  · subst he
    simp [hl]
  · simp [Finmap.lookup_insert_of_ne _ he]

/-- The task gets a place on a waiting list. -/
def View.addWaiter (id : TaskID) (v : View) (e : EventID) : View :=
  { v with
    waiting := Function.update v.waiting e (v.waiting e ++ [id])
    nextWaitNo := v.nextWaitNo + 1 }

lemma view_wait {th : ThreadID} {oldCurr : TaskID} (hs : m.stack = .body id th oldCurr :: rest)
    (hcurr : m.sched.currTaskId = id) (h : exec m [.wait e, .yielded] = some m')
    (hm : m.fault = none) (hf : m'.fault = none) :
    view m' = { (view m).addWaiter id e with
      bodies := (view m).bodies.tail
      top := topBody m'.stack } := by
  obtain ⟨m₁, hr, hf₁, hlast⟩ := exec_cons h hm hf
  cases hr with
  | fault hf' => simp [hf₁] at hf'
  | restart _ _ _ _ _ _ hcl => nomatch hcl
  | wait e l id' th' oldCurr' rest' hs' hl =>
    rw [hs] at hs'
    cases hs'
    have hwait : m.sched.waiting e = l := waiting_of_eq_some hl
    rw [view_suspend rfl hlast hm hf]
    ext1
    · funext e'
      simp [view, View.addWaiter, Scheduler.waiting, waiting_insert_map, hl, hcurr]
    all_goals
      simp [view, View.addWaiter, Machine.coroYield, hs, taken?, body?, woken?, List.filterMap_cons,
        listed_insert hl]

lemma view_removeEvent (hr : Rule m (.removeEvent e) m') (hf : m'.fault = none) :
    view m' = { view m with named := Function.update (view m).named e false } ∧
      m'.stack = m.stack := by
  cases hr with
  | fault hf' => simp [hf] at hf'
  | restart _ _ _ _ _ _ hcl => nomatch hcl
  | removeEvent =>
    refine ⟨?_, rfl⟩
    ext1
    case named =>
      funext e'
      by_cases he : e' = e <;> simp [view, Machine.removeEvent, he]
    all_goals rfl

lemma view_send (hr : Rule m (.send e) m') (hf : m'.fault = none) :
    view m' = { view m with pending := (view m).pending ++ [e] } ∧ m'.stack = m.stack := by
  cases hr with
  | fault hf' => simp [hf] at hf'
  | restart _ _ _ _ _ _ hcl => nomatch hcl
  | send => exact ⟨rfl, rfl⟩

/-- A new event has no waiting tasks. -/
def View.addEvent (v : View) (e : EventID) : View := { v with
  waiting := Function.update v.waiting e []
  named := Function.update v.named e true
  listed := Function.update v.listed e true
  nextEventId := e + 1 }

lemma view_newEvent {name : String} {s : Scheduler} (hs : m.sched.allocEventId = some (e, s))
    (hr : Rule m (.newEventHdl name none) m') (hf : m'.fault = none) :
    view m' = (view m).addEvent e ∧ (view m).nextEventId ≤ e ∧ m'.stack = m.stack ∧
      m'.sched.allocTaskId.map Prod.fst = m.sched.allocTaskId.map Prod.fst := by
  cases hr with
  | fault hf' => simp [hf] at hf'
  | restart _ _ _ _ _ _ hcl => nomatch hcl
  | newEventHdl name user e' s' hs' hc =>
    cases hc with
    | fresh _ _ halloc =>
      rw [hs] at halloc
      cases halloc
      obtain ⟨-, hle, -, rfl⟩ := Scheduler.allocEventId_eq_some hs
      refine ⟨?_, hle, rfl, ?_⟩
      · ext1
        case waiting =>
          funext e'
          exact waiting_insert_map e e' []
        case named =>
          funext e'
          by_cases he : e' = e <;> simp [view, View.addEvent, Scheduler.installEvent, he]
        case listed =>
          funext e'
          by_cases he : e' = e <;> simp [view, View.addEvent, Scheduler.installEvent, he]
        all_goals rfl
      · simp only [Scheduler.allocTaskId, Scheduler.installEvent]
        split
        · rfl
        · split_ifs <;> rfl

/-- The body of a task is entered. -/
def View.addBody (v : View) (id : TaskID) : View :=
  { v with bodies := id :: v.bodies, top := some id }

lemma view_installTask {name : String} {body : BodyID} (hset : m.sched.userRemovalTasksSet = ∅) :
    view (m.installTask id name body) =
      { view m with known := Function.update (view m).known id true } := by
  ext1
  case known =>
    funext id'
    by_cases hid : id' = id <;> simp [view, Machine.installTask, Machine.coroCreate, hid]
  all_goals
    simp [view, Machine.installTask, Machine.coroCreate, Clean.clearUserRemoval_eq hset,
      Scheduler.waiting, woken?, List.filterMap_cons]

lemma view_startTask (hmode : m.mode = .normal) :
    (m.startTask id true).stack = .call id :: m.stack ∧
      view (m.startTask id true) = { view m with top := none } := by
  have heq : m.startTask id true = Machine.call { m with
      sched := { m.sched with
        taskFiredStatusMap := Function.update m.sched.taskFiredStatusMap id true } } id := by
    simp [Machine.startTask, hmode]
  rw [heq]
  exact ⟨rfl, rfl⟩

lemma view_started {name : String} {body : BodyID} (hset : m.sched.userRemovalTasksSet = ∅)
    (hmode : m.mode = .normal) (hr : Rule ((m.installTask id name body).startTask id true) .enter m')
    (hc : Clean ((m.installTask id name body).startTask id true)) (hf : m'.fault = none) :
    view m' = View.addBody { view m with known := Function.update (view m).known id true } id := by
  obtain ⟨hstack, hview⟩ := view_startTask (m := m.installTask id name body) hmode
  rw [view_enter hr hstack hc hf, hview, view_installTask hset]
  rfl

lemma view_fork {name : String} {body : BodyID} {s : Scheduler} (hc : Clean m)
    (hs : m.sched.allocTaskId = some (id, s))
    (h : exec m [.appendTask none name body true, .enter] = some m') (hmode : m.mode = .normal)
    (hm : m.fault = none) (hf : m'.fault = none) :
    view m' = View.addBody { view m with known := Function.update (view m).known id true } id ∧
      (view m).known id = false := by
  obtain ⟨m₁, hr, hf₁, hrest⟩ := exec_cons h hm hf
  obtain ⟨m₂, hr₂, -, hlast⟩ := exec_cons hrest hf₁ hf
  cases hlast
  have hc₁ := hc.step hr rfl hf₁
  cases hr with
  | fault hf' => simp [hf₁] at hf'
  | restart _ _ _ _ _ _ hcl => nomatch hcl
  | append user id' name body startNow s' hs' hchosen =>
    cases hchosen with
    | fresh _ _ halloc =>
      rw [hs] at halloc
      cases halloc
      obtain ⟨hnew, -, -, rfl⟩ := Scheduler.allocTaskId_eq_some hs
      have hview := view_started (m := { m with sched := { m.sched with nextTaskId := id + 1 } })
        hc.noRemoval hmode hr₂ hc₁ hf
      exact ⟨hview, by simp [view, hnew]⟩

lemma exec_append {bs : List Verilua.Act} (h : exec m (as ++ bs) = some m') (hm : m.fault = none)
    (hf : m'.fault = none) : ∃ m₁, exec m as = some m₁ ∧ m₁.fault = none ∧ exec m₁ bs = some m' := by
  induction as generalizing m with
  | nil => exact ⟨m, rfl, hm, h⟩
  | cons a as ih =>
    rw [List.cons_append, exec, hm, Option.isSome_none, if_neg Bool.false_ne_true] at h
    obtain ⟨m₁, hs, hrest⟩ := Option.bind_eq_some_iff.mp h
    have hm₁ : m₁.fault = none := by
      by_contra hf₁
      have hstop : exec m₁ (as ++ bs) = some m₁ := by
        cases hcs : as ++ bs with
        | nil => rfl
        | cons => rw [exec, if_pos (Option.isSome_iff_ne_none.mpr hf₁)]
      rw [hstop] at hrest
      cases hrest
      exact hf₁ hf
    obtain ⟨m₂, hs₂, hm₂, hrest₂⟩ := ih hrest hm₁
    refine ⟨m₂, ?_, hm₂, hrest₂⟩
    rw [exec, hm, Option.isSome_none, if_neg Bool.false_ne_true, hs]
    exact hs₂

lemma view_jfork {name name' : String} {body : BodyID} {s s' : Scheduler} {child : TaskID}
    (hc : Clean m) (he : m.sched.allocEventId = some (e, s))
    (hs : m.sched.allocTaskId = some (child, s'))
    (h : exec m [.newEventHdl name' none, .appendTask none name body true, .enter] = some m')
    (hmode : m.mode = .normal) (hm : m.fault = none) (hf : m'.fault = none) :
    view m' = View.addBody { (view m).addEvent e with
      known := Function.update (view m).known child true } child ∧
      (view m).known child = false ∧ (view m).nextEventId ≤ e := by
  obtain ⟨m₁, hr, hf₁, hrest⟩ := exec_cons h hm hf
  obtain ⟨hview, hle, -, hid⟩ := view_newEvent he hr hf₁
  rw [hs] at hid
  obtain ⟨⟨child', s''⟩, hs', hchild⟩ := Option.map_eq_some_iff.mp hid
  cases hchild
  obtain ⟨hview', hknown⟩ := view_fork (hc.step hr rfl hf₁) hs' hrest
    ((hr.mode_eq hf₁).trans hmode) hf₁ hf
  rw [hview] at hview' hknown
  exact ⟨hview', hknown, hle⟩

lemma alloc_of_exec_fork {name : String} {body : BodyID}
    (h : exec m [.appendTask none name body true, .enter] = some m') (hm : m.fault = none)
    (hf : m'.fault = none) : ∃ id s, m.sched.allocTaskId = some (id, s) := by
  obtain ⟨m₁, hr, hf₁, -⟩ := exec_cons h hm hf
  cases hr with
  | fault hf' => exact absurd hf' (by simp [hf₁])
  | restart _ _ _ _ _ _ hcl => nomatch hcl
  | append user id name body startNow s hs hc =>
    cases hc with
    | fresh _ _ halloc => exact ⟨id, s, halloc⟩

lemma allocs_of_exec_jfork {name name' : String} {body : BodyID}
    (h : exec m [.newEventHdl name' none, .appendTask none name body true, .enter] = some m')
    (hm : m.fault = none) (hf : m'.fault = none) :
    ∃ e s child s', m.sched.allocEventId = some (e, s) ∧
      m.sched.allocTaskId = some (child, s') := by
  obtain ⟨m₁, hr, hf₁, hrest⟩ := exec_cons h hm hf
  obtain ⟨child, s₁, hchild⟩ := alloc_of_exec_fork hrest hf₁ hf
  have hevent : ∃ e s, m.sched.allocEventId = some (e, s) := by
    cases hr with
    | fault hf' => exact absurd hf' (by simp [hf₁])
    | restart _ _ _ _ _ _ hcl => nomatch hcl
    | newEventHdl name user e s hs hc =>
      cases hc with
      | fresh _ _ halloc => exact ⟨e, s, halloc⟩
  obtain ⟨e, s, he⟩ := hevent
  obtain ⟨-, -, -, hid⟩ := view_newEvent he hr hf₁
  rw [hchild] at hid
  obtain ⟨⟨child', s'⟩, hs', -⟩ := Option.map_eq_some_iff.mp hid.symm
  exact ⟨e, s, child', s', he, hs'⟩

lemma view_fire {n : Nat} {cb : Callback} (hc : Clean m) (hcb : m.callbacks[n]? = some cb)
    (h : exec m [.fire n, .enter] = some m') (hm : m.fault = none) (hf : m'.fault = none) :
    view m' = View.addBody { view m with callbacks := (view m).callbacks.eraseIdx n } cb.taskId ∧
      (view m).callbacks[n]? = some cb.taskId := by
  obtain ⟨m₁, hr, hf₁, hrest⟩ := exec_cons h hm hf
  obtain ⟨m₂, hr₂, -, hlast⟩ := exec_cons hrest hf₁ hf
  cases hlast
  have hc₁ := hc.step hr rfl hf₁
  have hshot := hc.oneShot cb (List.mem_of_getElem? hcb)
  cases hr with
  | fault hf' => simp [hf₁] at hf'
  | restart _ _ _ _ _ _ hcl => nomatch hcl
  | fire n cb' hs hcb' =>
    rw [hcb] at hcb'
    cases hcb'
    refine ⟨?_, by simp [view, hcb]⟩
    rw [view_enter hr₂ rfl hc₁ hf]
    simp only [view, hshot, Bool.false_eq_true, if_false, List.eraseIdx_map]
    rfl

lemma view_insertWaiter (hr : Rule m (.insertWaiter e) m') (hcurr : m.sched.currTaskId = id)
    (hf : m'.fault = none) :
    view m' = (view m).addWaiter id e ∧ m'.stack = m.stack ∧ m'.sched.currTaskId = id ∧
      m'.nextWaitNo = m.nextWaitNo + 1 := by
  cases hr with
  | fault hf' => simp [hf] at hf'
  | restart _ _ _ _ _ _ hcl => nomatch hcl
  | insertWaiter e l id' th' oldCurr' rest' hs' hl =>
    have hwait : m.sched.waiting e = l := waiting_of_eq_some hl
    refine ⟨?_, rfl, hcurr, rfl⟩
    ext1
    case waiting =>
      funext e'
      simp [view, View.addWaiter, Scheduler.waiting, waiting_insert_map, hl, hcurr]
    case listed =>
      funext e'
      simp [view, View.addWaiter, listed_insert hl]
    all_goals rfl

lemma view_insertWaiters {es : List EventID} (h : exec m (es.map .insertWaiter) = some m')
    (hcurr : m.sched.currTaskId = id) (hm : m.fault = none) (hf : m'.fault = none) :
    view m' = es.foldl (View.addWaiter id) (view m) ∧ m'.stack = m.stack ∧
      m'.sched.currTaskId = id := by
  induction es generalizing m with
  | nil =>
    cases h
    exact ⟨rfl, rfl, hcurr⟩
  | cons e es ih =>
    obtain ⟨m₁, hr, hf₁, hrest⟩ := exec_cons h hm hf
    obtain ⟨hview, hstack, hcurr₁, -⟩ := view_insertWaiter hr hcurr hf₁
    obtain ⟨hview', hstack', hcurr'⟩ := ih hrest hcurr₁ hf₁
    rw [List.foldl_cons, ← hview]
    exact ⟨hview', hstack'.trans hstack, hcurr'⟩

/-- The task loses its last place on a waiting list. -/
def View.dropWaiter (id : TaskID) (v : View) (e : EventID) : View :=
  { v with waiting := Function.update v.waiting e ((v.waiting e).reverse.erase id).reverse }

lemma view_dropWaiter (m : Machine) (id : TaskID) (e : EventID) :
    view (Join.dropWaiter id m e) = (view m).dropWaiter id e ∧
      (Join.dropWaiter id m e).stack = m.stack := by
  rcases dropWaiter_cases id m e with ⟨before, w, after, hl, hid, hafter, heq⟩ | ⟨heq, hnone⟩
  · rw [heq]
    have hwait : m.sched.waiting e = before ++ w :: after := waiting_of_eq_some hl
    have herase : ((m.sched.waiting e).map Waiter.taskId).reverse.erase id =
        ((before ++ after).map Waiter.taskId).reverse := by
      have hnot : id ∉ (after.map Waiter.taskId).reverse := by
        simpa using fun x hx => hafter x hx
      rw [hwait, List.map_append, List.map_cons, List.reverse_append, List.reverse_cons,
        List.append_assoc, List.singleton_append, List.erase_append_right _ hnot, hid,
        List.erase_cons_head, List.map_append, List.reverse_append]
    refine ⟨?_, rfl⟩
    ext1
    case waiting =>
      funext e'
      simp only [view, View.dropWaiter, Scheduler.waiting]
      rw [waiting_insert_map, ← List.reverse_reverse ((before ++ after).map Waiter.taskId), ← herase]
      rfl
    case listed =>
      funext e'
      simp [view, View.dropWaiter, listed_insert hl]
    all_goals rfl
  · rw [heq]
    refine ⟨?_, rfl⟩
    have hnot : id ∉ ((m.sched.waiting e).map Waiter.taskId).reverse := by
      simpa using fun x hx => hnone x hx
    ext1
    case waiting =>
      simp only [view, View.dropWaiter]
      rw [List.erase_of_not_mem hnot, List.reverse_reverse, Function.update_eq_self]
    all_goals rfl

lemma view_dropWaiters (m : Machine) (id : TaskID) (es : List EventID) :
    view (es.foldl (Join.dropWaiter id) m) = es.foldl (View.dropWaiter id) (view m) ∧
      (es.foldl (Join.dropWaiter id) m).stack = m.stack := by
  induction es generalizing m with
  | nil => exact ⟨rfl, rfl⟩
  | cons e es ih =>
    obtain ⟨hview, hstack⟩ := view_dropWaiter m id e
    obtain ⟨hview', hstack'⟩ := ih (Join.dropWaiter id m e)
    rw [List.foldl_cons, List.foldl_cons, ← hview]
    exact ⟨hview', hstack'.trans hstack⟩

lemma view_sends {sends : Bool} (h : exec m (if sends then [.send e] else []) = some m')
    (hm : m.fault = none) (hf : m'.fault = none) :
    view m' = { view m with
      pending := if sends then (view m).pending ++ [e] else (view m).pending } ∧
      m'.stack = m.stack := by
  cases sends with
  | false =>
    cases h
    exact ⟨rfl, rfl⟩
  | true =>
    obtain ⟨m₁, hr, hm₁, hlast⟩ := exec_cons h hm hf
    cases hlast
    exact view_send hr hm₁

lemma view_ret {th : ThreadID} {oldCurr : TaskID} {sends : Bool}
    (hs : m.stack = .body id th oldCurr :: rest)
    (h : exec m ((if sends then [.send e] else []) ++ [.removeEvent e, .yield .returned, .yielded]) =
      some m')
    (hm : m.fault = none) (hf : m'.fault = none) :
    view m' = { view m with
      pending := if sends then (view m).pending ++ [e] else (view m).pending
      named := Function.update (view m).named e false
      bodies := (view m).bodies.tail
      top := topBody m'.stack } := by
  obtain ⟨m₁, h₁, hm₁, hrest⟩ := exec_append h hm hf
  obtain ⟨m₂, hr₂, hm₂, hrest₂⟩ := exec_cons hrest hm₁ hf
  obtain ⟨hview₁, hstack₁⟩ := view_sends h₁ hm hm₁
  obtain ⟨hview₂, hstack₂⟩ := view_removeEvent hr₂ hm₂
  rw [view_yield (hstack₂.trans (hstack₁.trans hs)) hrest₂ hm₂ hf, hview₂, hview₁]

/-! ### The wake-up loop -/

lemma view_wake {next : Nat} {w : Waiter} {ws : List Waiter}
    (hs : m.stack = .wakeup next (some (e, w :: ws)) :: rest) (hc : Clean m)
    (h : exec m [.loop, .enter] = some m') (hm : m.fault = none) (hf : m'.fault = none) :
    view m' = View.addBody { view m with
      taken := (e, ws.map Waiter.taskId) :: (view m).taken.tail
      wakes := (e, w) :: (view m).wakes } w.taskId ∧
      m'.sched.currWakeupEventId = m.sched.currWakeupEventId ∧
      m'.nextWaitNo = m.nextWaitNo := by
  obtain ⟨m₁, hr, hf₁, hrest⟩ := exec_cons h hm hf
  obtain ⟨m₂, hr₂, -, hlast⟩ := exec_cons hrest hf₁ hf
  cases hlast
  have hc₁ := hc.step hr rfl hf₁
  cases hr with
  | fault hf' => simp [hf₁] at hf'
  | restart _ _ _ _ _ _ hcl => nomatch hcl
  | loopNext _ _ _ hs' | loopTake _ _ _ _ hs' | loopClose _ _ hs' => cases hs.symm.trans hs'
  | loopWake next' e' w' ws' rest' hs' =>
    cases hs.symm.trans hs'
    obtain ⟨ht, hno⟩ := enter_keeps hr₂ hc₁ hf
    refine ⟨?_, congrArg EventTables.currWakeupEventId ht, hno⟩
    rw [view_enter hr₂ rfl hc₁ hf]
    simp only [view, hs]
    rfl

lemma view_next {next : Nat} (hs : m.stack = .wakeup next (some (e, [])) :: rest)
    (h : exec m [.loop] = some m') (hm : m.fault = none) (hf : m'.fault = none) :
    view m' = { view m with taken := (view m).taken.tail } := by
  obtain ⟨m₁, hr, hf₁, hlast⟩ := exec_cons h hm hf
  cases hlast
  cases hr with
  | fault hf' => simp [hf] at hf'
  | restart _ _ _ _ _ _ hcl => nomatch hcl
  | loopWake _ _ _ _ _ hs' | loopTake _ _ _ _ hs' | loopClose _ _ hs' => cases hs.symm.trans hs'
  | loopNext next' e' rest' hs' =>
    cases hs.symm.trans hs'
    simp only [view, hs]
    rfl

/-- The loop takes the list of the next entry, or it has come to the end of the entries. All entries
before those that it has still to take are handled. -/
lemma view_advance {next : Nat} (hs : m.stack = .wakeup next none :: rest) (hsteady : Steady m)
    (h : exec m [.loop] = some m') (hm : m.fault = none) (hf : m'.fault = none) :
    (∃ e, m.sched.pendingWakeupEvent[next]? = some e ∧ next ≤ (view m).handled ∧
        view m' = { view m with
          taken := (e, (view m).waiting e) :: (view m).taken
          waiting := Function.update (view m).waiting e []
          handled := max (view m).handled (next + 1) }) ∨
      (view m).pending.drop (view m).handled = [] ∧ view m' = { view m with
        pending := []
        handled := 0
        top := topBody m'.stack } := by
  obtain ⟨m₁, hr, hf₁, hlast⟩ := exec_cons h hm hf
  cases hlast
  obtain ⟨-, hloops⟩ := bus_loop hs hsteady.flagDown
  have hflag : m.bus.flag = false := hsteady.flagDown (by rw [hs]; trivial)
  have hle := hsteady.covered.toBehind.next_le hflag hloops
  cases hr with
  | fault hf' => simp [hf] at hf'
  | restart _ _ _ _ _ _ hcl => nomatch hcl
  | loopWake _ _ _ _ _ hs' | loopNext _ _ _ hs' => cases hs.symm.trans hs'
  | loopTake next' e l rest' hs' he hl =>
    cases hs.symm.trans hs'
    have hwait : m.sched.waiting e = l := waiting_of_eq_some hl
    refine .inl ⟨e, he, hle.resolve_left fun hnil => ?_, ?_⟩
    · have hnil' : m.sched.pendingWakeupEvent = [] := hnil
      rw [hnil'] at he
      cases he
    · ext1
      case waiting =>
        funext e'
        simp [view, Scheduler.waiting, waiting_insert_map]
      case listed =>
        funext e'
        simp [view, listed_insert hl]
      case taken =>
        simp only [view, hs, hwait]
        rfl
      case bodies =>
        simp only [view, hs]
        rfl
      case top =>
        simp only [view, hs]
        rfl
      all_goals rfl
  | loopClose next' rest' hs' he =>
    cases hs.symm.trans hs'
    refine .inr ⟨?_, ?_⟩
    · rcases hle with hnil | hle
      · have hnil' : m.sched.pendingWakeupEvent = [] := hnil
        show m.sched.pendingWakeupEvent.drop m.handled = []
        rw [hnil', List.drop_nil]
      · exact List.drop_eq_nil_of_le ((List.getElem?_eq_none_iff.mp he).trans hle)
    · ext1
      case taken =>
        simp only [view, hs]
        rfl
      case bodies =>
        simp only [view, hs]
        rfl
      all_goals rfl

/-! ### Runs that end in no error -/

section NoFault

variable {th : ThreadID} {oldCurr : TaskID} {es : List EventID}

lemma exec_append_eq (as bs : List Verilua.Act) (m : Machine) :
    exec m (as ++ bs) = (exec m as).bind fun m' => exec m' bs := by
  induction as generalizing m with
  | nil => rfl
  | cons a as ih =>
    rw [List.cons_append, exec, exec]
    split_ifs with hf
    · cases bs with
      | nil => rfl
      | cons b bs => simp [exec, hf]
    · rw [Option.bind_assoc]
      exact Option.bind_congr fun m₁ _ => ih m₁

lemma listed_iff : (view m).listed e = true ↔ ∃ l, m.sched.eventTaskIdListMap.lookup e = some l :=
  Option.isSome_iff_exists

lemma insertWaiter_noFault (hs : m.stack = .body id th oldCurr :: rest) (hm : m.fault = none)
    (hl : (view m).listed e = true) (h : m.step (.insertWaiter e) = some m') : m'.fault = none := by
  obtain ⟨l, hl⟩ := listed_iff.mp hl
  simp only [Machine.step, hm, hs, Machine.bodyStep, Machine.insertWaiter, hl, Option.isSome_none,
    Bool.false_eq_true, if_false, Option.some.injEq] at h
  rw [← h]

lemma exec_yielded_noFault {y : Yielded} (hs : m.stack = .resumed id th oldCurr y :: rest)
    (hm : m.fault = none) (hy : y ≠ .unknown) (h : exec m [.yielded] = some m') :
    m'.fault = none := by
  rw [exec, hm, Option.isSome_none, if_neg Bool.false_ne_true] at h
  obtain ⟨m₁, hstep, hlast⟩ := Option.bind_eq_some_iff.mp h
  cases hlast
  simp only [Machine.step, hm, hs, Machine.taskYielded, Option.isSome_none, Bool.false_eq_true,
    if_false, if_neg hy, Option.some.injEq] at hstep
  rw [← hstep]
  split_ifs <;> rfl

lemma exec_yield_noFault (hs : m.stack = .body id th oldCurr :: rest) (hm : m.fault = none)
    (h : exec m [.yield .noop, .yielded] = some m') : m'.fault = none := by
  have hstep : m.step (.yield .noop) = some (m.coroYield id th oldCurr rest .noop) := by
    simp [Machine.step, hm, hs, Machine.bodyStep]
  rw [exec, hm, Option.isSome_none, if_neg Bool.false_ne_true, hstep, Option.bind_some] at h
  exact exec_yielded_noFault (m := m.coroYield id th oldCurr rest .noop) rfl hm
    Yielded.noConfusion h

lemma exec_wait_noFault (hs : m.stack = .body id th oldCurr :: rest) (hm : m.fault = none)
    (hname : (view m).named e = true) (hl : (view m).listed e = true)
    (h : exec m [.wait e, .yielded] = some m') : m'.fault = none := by
  obtain ⟨l, hl⟩ := listed_iff.mp hl
  have hname : m.sched.eventNameMap e ≠ none := Option.isSome_iff_ne_none.mp hname
  rw [exec, hm, Option.isSome_none, if_neg Bool.false_ne_true] at h
  obtain ⟨m₁, hstep, hrest⟩ := Option.bind_eq_some_iff.mp h
  have hr := (Rule.of_step hstep).2
  have hm₁ : m₁.fault = none := by
    simp only [Machine.step, hm, hs, Machine.bodyStep, Machine.registerEvent, Machine.insertWaiter,
      hl, hname, Option.isSome_none, Bool.false_eq_true, if_false, Option.some.injEq] at hstep
    rw [← hstep]
    rfl
  cases hr with
  | fault hf' => simp [hm₁] at hf'
  | restart _ _ _ _ _ _ hcl => nomatch hcl
  | wait e l id' th' oldCurr' rest' hs' hl =>
    exact exec_yielded_noFault rfl hm₁ Yielded.noConfusion hrest

lemma exec_insertWaiters_noFault (hs : m.stack = .body id th oldCurr :: rest) (hm : m.fault = none)
    (hl : ∀ e ∈ es, (view m).listed e = true) (h : exec m (es.map .insertWaiter) = some m') :
    m'.fault = none := by
  induction es generalizing m with
  | nil =>
    cases h
    exact hm
  | cons e es ih =>
    rw [List.map_cons, exec, hm, Option.isSome_none, if_neg Bool.false_ne_true] at h
    obtain ⟨m₁, hstep, hrest⟩ := Option.bind_eq_some_iff.mp h
    have hm₁ := insertWaiter_noFault hs hm (hl e List.mem_cons_self) hstep
    obtain ⟨hview, hstack, -⟩ := view_insertWaiter (Rule.of_step hstep).2 rfl hm₁
    refine ih (hstack.trans hs) hm₁ (fun e' he' => ?_) hrest
    rw [hview]
    exact hl e' (List.mem_cons_of_mem e he')

end NoFault

/-! ### The outermost call returns -/

lemma view_of_not_inSchedule (h : m.inSchedule = false) :
    (view m).bodies = [] ∧ (view m).taken = [] := by
  have hpass : ∀ f ∈ m.stack, body? f = none ∧ taken? f = none := by
    intro f hf
    have hnot := List.any_eq_false.mp h f hf
    cases f with
    | pass => exact ⟨rfl, rfl⟩
    | _ => exact absurd rfl hnot
  exact ⟨List.filterMap_eq_nil_iff.mpr fun f hf => (hpass f hf).1,
    List.filterMap_eq_nil_iff.mpr fun f hf => (hpass f hf).2⟩

def notSend : Verilua.Act → Bool
  | .send _ => false
  | _ => true

lemma flag_step (h : Steady m) (hr : Rule m a m') (hplain : plain a = true) (hnot : notSend a = true)
    (hf : m'.fault = none) (hflag : m.inSchedule = false → m.sched.hasWakeupEvent = false)
    (hout : m'.inSchedule = false) : m'.sched.hasWakeupEvent = false := by
  cases hin : m.inSchedule with
  | true => exact hr.flag_of_returns ⟨hin, hout⟩ h.flagDown (keepsWakeups_of_plain h.clean hplain) hf
  | false =>
    have hdown : m.bus.flag = false := hflag hin
    show m'.bus.flag = false
    rcases hr.refines h.flagDown hf with hsame | ⟨b, hb, hstep⟩
    · rw [hsame]
      exact hdown
    · refine (EventBus.Rule.of_step hstep).flag_eq_false (fun e he => ?_) hdown
      subst he
      cases hb
      simp [notSend] at hnot

lemma exec_flag (h : Steady m) (hexec : exec m as = some m') (hplain : as.all plain = true)
    (hnot : as.all notSend = true) (hm : m.fault = none) (hf : m'.fault = none)
    (hin : m.inSchedule = false → m.sched.hasWakeupEvent = false) (hout : m'.inSchedule = false) :
    m'.sched.hasWakeupEvent = false := by
  induction as generalizing m with
  | nil =>
    cases hexec
    exact hin hout
  | cons a as ih =>
    rw [List.all_cons, Bool.and_eq_true] at hplain hnot
    obtain ⟨m₁, hr, hm₁, hrest⟩ := exec_cons hexec hm hf
    exact ih (h.step hr hplain.1 hm₁) hrest hplain.2 hnot.2 hm₁ (flag_step h hr hplain.1 hnot.1 hm₁ hin)

end Verilua.Join
