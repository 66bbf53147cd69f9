import Verilua.Scheduler.Step

/-!
# What one step of the scheduler can do

`Rule m a m'` lists every outcome of `m.step a` with the state it leads to, so that an invariant
is proved by cases on it and no proof unfolds the functions of the scheduler again.
-/

namespace Verilua

/-- The scheduler from which a restart of `id` builds a fresh coroutine: what `wakeup_task` or
`try_wakeup_task` leaves of the marks of the earlier one. -/
inductive Cleaned (s : Scheduler) (id : TaskID) : Act → Scheduler → Prop
  | notRunning (h : id ∉ s.taskNameMapRunning) : Cleaned s id (.wakeupTask id) s
  | flagged (h : id ∈ s.taskNameMapRunning) (hf : id ∈ s.userRemovalTasksSet) :
      Cleaned s id (.wakeupTask id) (s.clearUserRemoval id)
  | pending (h : id ∈ s.taskNameMapRunning) (hf : id ∉ s.userRemovalTasksSet) (i : Nat)
      (hi : s.pendingRemovalTasks.findIdx? (fun r => r = id) = some i) :
      Cleaned s id (.wakeupTask id) { s with
        pendingRemovalTasks := s.pendingRemovalTasks.eraseIdx i
        nrPendingRemovalTasks := s.nrPendingRemovalTasks - 1 }
  | tried (h : id ∈ s.taskNameMapRunning → id ∈ s.userRemovalTasksSet) :
      Cleaned s id (.tryWakeupTask id) (s.clearUserRemoval id)

lemma Cleaned.keeps {s s' : Scheduler} {id : TaskID} {a : Act} (h : Cleaned s id a s') :
    Keeps s s' := by
  cases h with
  | notRunning => exact .refl s
  | flagged | tried => exact keeps_clearUserRemoval s id
  | pending => constructor <;> rfl

/-- The id that `append_task` uses, and the scheduler once it is settled. -/
inductive Chosen (s : Scheduler) : Option TaskID → TaskID → Scheduler → Prop
  | given (id) (hv : isValidTaskId id = true)
      (h : id ∈ s.taskNameMapRunning → id ∈ s.userRemovalTasksSet) : Chosen s (some id) id s
  | fresh (id s') (h : s.allocTaskId = some (id, s')) : Chosen s none id s'

/-- The id that `new_event_hdl` uses, and the scheduler once it is settled. -/
inductive ChosenEvent (s : Scheduler) : Option EventID → EventID → Scheduler → Prop
  | given (e) (hv : isValidEventId e = true) : ChosenEvent s (some e) e s
  | fresh (e s') (h : s.allocEventId = some (e, s')) : ChosenEvent s none e s'

/-- The code of a body runs, or code outside every task. -/
def AtCode : List Frame → Prop
  | [] => True
  | .body .. :: _ => True
  | _ => False

inductive Rule (m : Machine) : Act → Machine → Prop
  /-- The run ends with an error before it has left a trace. -/
  | fault {a m'} (hf : m'.fault.isSome) (hlog : m'.log = m.log) : Rule m a m'
  | removeFault (id) {m'} (hf : m'.fault.isSome)
      (hlog : m'.log = .remove id (m.sched.checkTaskExists id) :: m.log) :
      Rule m (.removeTask id) m'
  | resumeFault (id rest th t) {m'} (hs : m.stack = .call id :: rest)
      (hskip : ¬ (0 < m.sched.nrUserRemovalTasks ∧ id ∈ m.sched.userRemovalTasksSet))
      (hc : m.sched.taskCoroutineMap id = some th)
      (ht : m.threads th = some t) (hn : t.status ≠ .suspended) (hf : m'.fault.isSome)
      (hlog : m'.log = .resume id th t.finished :: m.log) : Rule m .enter m'
  | skip (id rest) (hs : m.stack = .call id :: rest)
      (hnr : 0 < m.sched.nrUserRemovalTasks) (hset : id ∈ m.sched.userRemovalTasksSet) :
      Rule m .enter { m with
        sched := (m.sched.drainPendingRemoval.clearUserRemoval id).unregister id
        stack := rest
        log := .skip id :: m.log }
  | resume (id rest cnt th t) (hs : m.stack = .call id :: rest)
      (hskip : ¬ (0 < m.sched.nrUserRemovalTasks ∧ id ∈ m.sched.userRemovalTasksSet))
      (hcnt : m.sched.drainPendingRemoval.taskExecutionCountMap id = some cnt)
      (hc : m.sched.taskCoroutineMap id = some th)
      (ht : m.threads th = some t) (hsus : t.status = .suspended) :
      Rule m .enter { m with
        threads := Function.update m.threads th (some { t with status := .active })
        sched := { m.sched.drainPendingRemoval with
          taskExecutionCountMap :=
            Function.update m.sched.drainPendingRemoval.taskExecutionCountMap id (some (cnt + 1))
          currTaskId := id }
        stack := .body id th m.sched.drainPendingRemoval.currTaskId :: rest
        log := .resume id th t.finished :: m.log }
  | yieldedLoop (id th oldCurr y rest) (hs : m.stack = .resumed id th oldCurr y :: rest)
      (hy : y ≠ .unknown) (hf : m.sched.hasWakeupEvent = true) :
      Rule m .yielded { m with
        sched := { m.sched.settle m.mode id oldCurr y with hasWakeupEvent := false }
        stack := .wakeup 0 none :: rest
        log := if y.finishes then .finish id th :: m.log else m.log }
  | yieldedReturn (id th oldCurr y rest) (hs : m.stack = .resumed id th oldCurr y :: rest)
      (hy : y ≠ .unknown) (hf : m.sched.hasWakeupEvent = false) :
      Rule m .yielded { m with
        sched := m.sched.settle m.mode id oldCurr y
        stack := rest
        log := if y.finishes then .finish id th :: m.log else m.log }
  | loopWake (next e w ws rest) (hs : m.stack = .wakeup next (some (e, w :: ws)) :: rest) :
      Rule m .loop { m with
        stack := .call w.taskId :: .wakeup next (some (e, ws)) :: rest
        log := .wake e w :: m.log }
  | loopNext (next e rest) (hs : m.stack = .wakeup next (some (e, [])) :: rest) :
      Rule m .loop { m with
        sched := { m.sched with currWakeupEventId := none }
        stack := .wakeup next none :: rest }
  | loopTake (next e l rest) (hs : m.stack = .wakeup next none :: rest)
      (he : m.sched.pendingWakeupEvent[next]? = some e)
      (hl : m.sched.eventTaskIdListMap.lookup e = some l) :
      Rule m .loop { m with
        sched := { m.sched with
          currWakeupEventId := some e
          eventTaskIdListMap := m.sched.eventTaskIdListMap.insert e [] }
        stack := .wakeup (next + 1) (some (e, l)) :: rest
        handled := max m.handled (next + 1) }
  | loopClose (next rest) (hs : m.stack = .wakeup next none :: rest)
      (he : m.sched.pendingWakeupEvent[next]? = none) :
      Rule m .loop { m with
        sched := { m.sched with pendingWakeupEvent := [] }
        stack := rest
        handled := 0 }
  | startPass (kind) (hs : m.stack = []) (hk : kind ≠ .all → m.mode = .edgeStep) :
      Rule m (.startPass kind) { m with
        stack := [.pass kind (m.sched.passKeys kind) ∅ none] }
  | pickFired (id kind start visited rest) (hs : m.stack = .pass kind start visited none :: rest)
      (hfired : m.sched.taskFiredStatusMap id = true) :
      Rule m (.pick id) { m with stack := .pass kind start (insert id visited) none :: rest }
  | pick (id kind start visited ret rest) (hs : m.stack = .pass kind start visited none :: rest)
      (hk : id ∈ m.sched.passKeys kind) (hv : id ∉ visited)
      (hret : ret = none ∨ ret = some id)
      (hfired : kind = .all → m.mode = .normal → m.sched.taskFiredStatusMap id = false) :
      Rule m (.pick id) { m with
        stack := .call id :: .pass kind start (insert id visited) ret :: rest }
  | passReturn (id kind start visited rest)
      (hs : m.stack = .pass kind start visited (some id) :: rest) :
      Rule m .passReturn { m with
        sched := { m.sched with
          taskFiredStatusMap := Function.update m.sched.taskFiredStatusMap id true }
        stack := .pass kind start visited none :: rest }
  | endPass (kind start visited rest) (hs : m.stack = .pass kind start visited none :: rest) :
      Rule m .endPass { m with stack := rest }
  | fire (n cb) (hs : AtCode m.stack) (hcb : m.callbacks[n]? = some cb) :
      Rule m (.fire n) { m with
        callbacks := if cb.always then m.callbacks else m.callbacks.eraseIdx n
        stack := .call cb.taskId :: m.stack }
  | newEventHdl (name user e s) (hs : AtCode m.stack) (hc : ChosenEvent m.sched user e s) :
      Rule m (.newEventHdl name user) { m with sched := s.installEvent name e }
  | removeEvent (e) (hs : AtCode m.stack) : Rule m (.removeEvent e) (m.removeEvent e)
  | send (e) (hs : AtCode m.stack) : Rule m (.send e) (m.sendEvent e)
  | append (user id name body startNow s) (hs : AtCode m.stack) (hc : Chosen m.sched user id s) :
      Rule m (.appendTask user name body startNow)
        ((Machine.installTask { m with sched := s } id name body).startTask id startNow)
  | restart (a id name body s) (hs : AtCode m.stack) (hc : Cleaned m.sched id a s)
      (hname : m.sched.taskNameMapArchived id = some name)
      (hbody : m.sched.taskBodyMap id = some body) :
      Rule m a ((Machine.coroCreate { m with
        sched := { s with
          taskNameMapRunning := s.taskNameMapRunning.insert id name
          taskFiredStatusMap := Function.update s.taskFiredStatusMap id true } } id body).call id)
  | tryRunning (id) (hs : AtCode m.stack) (hr : id ∈ m.sched.taskNameMapRunning)
      (hf : id ∉ m.sched.userRemovalTasksSet) : Rule m (.tryWakeupTask id) m
  | remove (id) (hs : AtCode m.stack) :
      Rule m (.removeTask id) { m with
        sched := m.sched.flagUserRemoval id
        log := .remove id (m.sched.checkTaskExists id) :: m.log }
  | removeWaiting (id e l i w) (hs : AtCode m.stack)
      (he : m.sched.taskIdToEventIdMap id = some e) (hl : m.sched.eventTaskIdListMap.lookup e = some l)
      (hi : l[i]? = some w) (hw : w.taskId = id) (hcount : l.countP (fun w => w.taskId = id) = 1) :
      Rule m (.removeTask id) { m with
        sched := { m.sched.flagUserRemoval id with
          eventTaskIdListMap :=
            m.sched.eventTaskIdListMap.insert e (l.eraseIdx i) }
        log := .unwait e w :: .remove id (m.sched.checkTaskExists id) :: m.log }
  | wait (e l id th oldCurr rest) (hs : m.stack = .body id th oldCurr :: rest)
      (hl : m.sched.eventTaskIdListMap.lookup e = some l) (hname : m.sched.eventNameMap e ≠ none) :
      Rule m (.wait e) { m.coroYield id th oldCurr rest .noop with
        sched := { m.sched with
          taskIdToEventIdMap := Function.update m.sched.taskIdToEventIdMap m.sched.currTaskId (some e)
          eventTaskIdListMap := m.sched.eventTaskIdListMap.insert e (l ++ [⟨m.sched.currTaskId, m.nextWaitNo⟩]) }
        nextWaitNo := m.nextWaitNo + 1
        log := .register e ⟨m.sched.currTaskId, m.nextWaitNo⟩ :: m.log }
  | insertWaiter (e l id th oldCurr rest) (hs : m.stack = .body id th oldCurr :: rest)
      (hl : m.sched.eventTaskIdListMap.lookup e = some l) :
      Rule m (.insertWaiter e) { m with
        sched := { m.sched with
          eventTaskIdListMap := m.sched.eventTaskIdListMap.insert e (l ++ [⟨m.sched.currTaskId, m.nextWaitNo⟩]) }
        nextWaitNo := m.nextWaitNo + 1
        log := .register e ⟨m.sched.currTaskId, m.nextWaitNo⟩ :: m.log }
  | awaitCallback (always id th oldCurr rest) (hs : m.stack = .body id th oldCurr :: rest)
      (hm : m.mode = .normal) :
      Rule m (.awaitCallback always) { m.coroYield id th oldCurr rest .noop with
        callbacks := m.callbacks ++ [⟨m.sched.currTaskId, always, th⟩] }
  | awaitPosedge (id th oldCurr rest) (hs : m.stack = .body id th oldCurr :: rest)
      (hm : m.mode = .edgeStep) :
      Rule m .awaitPosedge { m with
        sched := { m.sched with
          posedgeTasks := insert m.sched.currTaskId m.sched.posedgeTasks } }
  | awaitNegedge (id th oldCurr rest) (hs : m.stack = .body id th oldCurr :: rest)
      (hm : m.mode = .edgeStep) :
      Rule m .awaitNegedge { m with
        sched := { m.sched with
          negedgeTasks := insert m.sched.currTaskId m.sched.negedgeTasks } }
  | yield (y id th oldCurr rest) (hs : m.stack = .body id th oldCurr :: rest) :
      Rule m (.yield y) (m.coroYield id th oldCurr rest y)

namespace Rule

variable {m m' : Machine} {a : Act} {id : TaskID} {e : EventID}

lemma fail (f : Fault) : Rule m a (m.fail f) := .fault rfl rfl

lemma of_scheduleTask {rest : List Frame} (hs : m.stack = .call id :: rest) :
    Rule m .enter (m.scheduleTask id rest) := by
  unfold Machine.scheduleTask
  dsimp only
  split_ifs with hskip
  · exact .skip id rest hs (by simpa using hskip.1) (by simpa using hskip.2)
  · rw [drainPendingRemoval_nrUserRemovalTasks, drainPendingRemoval_userRemovalTasksSet] at hskip
    split
    · exact fail _
    · next cnt hcnt =>
      unfold Machine.coroResume
      dsimp only
      split
      · exact .fault rfl rfl
      · next th hc =>
        rw [(keeps_drainPendingRemoval m.sched).taskCoroutineMap] at hc
        split
        · exact .fault rfl rfl
        · next t ht =>
          split_ifs with hsus
          · exact .resume id rest cnt th t hs hskip hcnt hc ht hsus
          · exact .resumeFault id rest th t hs hskip hc ht hsus rfl rfl

lemma of_taskYielded {th : ThreadID} {oldCurr : TaskID} {y : Yielded} {rest : List Frame}
    (hs : m.stack = .resumed id th oldCurr y :: rest) :
    Rule m .yielded (m.taskYielded id th oldCurr y rest) := by
  unfold Machine.taskYielded
  by_cases hy : y = .unknown
  · rw [if_pos hy]
    exact fail _
  · rw [if_neg hy]
    dsimp only
    have hflag : (m.sched.settle m.mode id oldCurr y).hasWakeupEvent = m.sched.hasWakeupEvent :=
      congrArg EventTables.hasWakeupEvent (settle_eventTables ..)
    rw [hflag]
    cases hf : m.sched.hasWakeupEvent with
    | true => exact .yieldedLoop id th oldCurr y rest hs hy hf
    | false => exact .yieldedReturn id th oldCurr y rest hs hy hf

lemma of_wakeupLoop {next : Nat} {taken : Option (EventID × List Waiter)} {rest : List Frame}
    (hs : m.stack = .wakeup next taken :: rest) : Rule m .loop (m.wakeupLoop next taken rest) := by
  unfold Machine.wakeupLoop
  split
  · next e w ws => exact .loopWake next e w ws rest hs
  · next e => exact .loopNext next e rest hs
  · split
    · next e he =>
      split
      · exact fail _
      · next l hl => exact .loopTake next e l rest hs he hl
    · next he => exact .loopClose next rest hs he

lemma of_startPass {kind : PassKind} (hs : m.stack = []) :
    Rule m (.startPass kind) (m.startPass kind) := by
  unfold Machine.startPass
  rw [hs]
  split
  · exact .startPass .all hs fun h => absurd rfl h
  · split_ifs with hm
    · exact .startPass .posedge hs fun _ => hm
    · exact fail _
  · split_ifs with hm
    · exact .startPass .negedge hs fun _ => hm
    · exact fail _

lemma of_passStep {kind : PassKind} {start visited : Finset TaskID} {ret : Option TaskID}
    {rest : List Frame} (hs : m.stack = .pass kind start visited ret :: rest)
    (h : m.passStep kind start visited ret rest a = some m') : Rule m a m' := by
  unfold Machine.passStep at h
  split at h
  · next id =>
    split_ifs at h with hpick hall hfired
    · obtain ⟨rfl, hk, hv⟩ := hpick
      cases h
      exact .pickFired id kind start visited rest hs hfired
    · obtain ⟨rfl, hk, hv⟩ := hpick
      cases h
      exact .pick id kind start visited _ rest hs hk hv (.inr rfl) fun _ _ => by simpa using hfired
    · obtain ⟨rfl, hk, hv⟩ := hpick
      cases h
      exact .pick id kind start visited _ rest hs hk hv (.inl rfl)
        fun hkind hmode => absurd ⟨hkind, hmode⟩ hall
  · split at h
    · next id =>
      cases h
      exact .passReturn id kind start visited rest hs
    · cases h
  · split_ifs at h with hend
    obtain ⟨rfl, -⟩ := hend
    cases h
    exact .endPass kind start visited rest hs
  · cases h

lemma of_newEventHdl {name : String} {user : Option EventID} (hs : AtCode m.stack) :
    Rule m (.newEventHdl name user) (m.newEventHdl name user) := by
  unfold Machine.newEventHdl
  split
  · split
    · exact fail _
    · next e s h => exact .newEventHdl name none e s hs (.fresh e s h)
  · next e =>
    split_ifs with hv
    · exact .newEventHdl name (some e) e m.sched hs (.given e hv)
    · exact fail _

lemma of_appendTask {user : Option TaskID} {name : String} {body : BodyID} {startNow : Bool}
    (hs : AtCode m.stack) :
    Rule m (.appendTask user name body startNow) (m.appendTask user name body startNow) := by
  unfold Machine.appendTask
  split
  · next id =>
    split_ifs with hv hr
    · exact fail _
    · exact fail _
    · refine .append (some id) id name body startNow m.sched hs (.given id (by simpa using hv) ?_)
      simpa [Scheduler.checkTaskExists] using hr
  · split
    · exact fail _
    · next id s h => exact .append none id name body startNow s hs (.fresh id s h)

lemma of_restartTask {name : String} {s : Scheduler} (hs : AtCode m.stack)
    (hc : Cleaned m.sched id a s) (hname : m.sched.taskNameMapArchived id = some name) :
    Rule m a (Machine.restartTask { m with sched := s } id name) := by
  unfold Machine.restartTask
  split
  · exact .fault rfl rfl
  · next body hbody => exact .restart a id name body s hs hc hname (hc.keeps.taskBodyMap ▸ hbody)

lemma of_wakeupTask (hs : AtCode m.stack) : Rule m (.wakeupTask id) (m.wakeupTask id) := by
  unfold Machine.wakeupTask
  split
  · exact fail _
  · next name hname =>
    split_ifs with hr hf
    · rw [Scheduler.checkTaskExists, decide_eq_true_eq] at hr
      exact of_restartTask hs (.flagged hr hf) hname
    · rw [Scheduler.checkTaskExists, decide_eq_true_eq] at hr
      split
      · exact fail _
      · next i hi => exact of_restartTask hs (.pending hr hf i hi) hname
    · rw [Scheduler.checkTaskExists, decide_eq_true_eq] at hr
      exact of_restartTask hs (.notRunning hr) hname

lemma of_tryWakeupTask (hs : AtCode m.stack) : Rule m (.tryWakeupTask id) (m.tryWakeupTask id) := by
  unfold Machine.tryWakeupTask
  split_ifs with hr
  · simp only [Scheduler.checkTaskExists, Bool.and_eq_true, decide_eq_true_eq] at hr
    exact .tryRunning id hs hr.1 hr.2
  · split
    · exact fail _
    · next name hname =>
      refine of_restartTask hs (.tried ?_) hname
      simpa [Scheduler.checkTaskExists] using hr

lemma of_removeTask (hs : AtCode m.stack) : Rule m (.removeTask id) (m.removeTask id) := by
  unfold Machine.removeTask
  split_ifs
  · exact fail _
  · exact fail _
  · unfold Machine.unregisterEvent
    split
    · exact .remove id hs
    · next e he =>
      split
      · exact .removeFault id rfl rfl
      · next l hl =>
        split_ifs with hc
        · exact .removeFault id rfl rfl
        · split
          · exact .remove id hs
          · next i hi =>
            have hlists : (m.sched.flagUserRemoval id).eventTaskIdListMap =
                m.sched.eventTaskIdListMap :=
              congrArg EventTables.eventTaskIdListMap (keeps_flagUserRemoval ..).eventTables
            have hevents : (m.sched.flagUserRemoval id).taskIdToEventIdMap =
                m.sched.taskIdToEventIdMap :=
              congrArg EventTables.taskIdToEventIdMap (keeps_flagUserRemoval ..).eventTables
            rw [hevents] at he
            rw [hlists] at hl ⊢
            obtain ⟨hlt, hw, -⟩ := List.findIdx?_eq_some_iff_getElem.mp hi
            rw [decide_eq_true_eq] at hw
            have hpos : 0 < l.countP fun w => w.taskId = id :=
              List.countP_pos_iff.mpr ⟨l[i], List.getElem_mem hlt, by simpa using hw⟩
            rw [List.getElem?_eq_getElem hlt]
            exact .removeWaiting id e l i l[i] hs he hl (List.getElem?_eq_getElem hlt) hw (by omega)

lemma of_codeStep (hs : AtCode m.stack) (h : m.codeStep a = some m') : Rule m a m' := by
  unfold Machine.codeStep at h
  split at h
  · next n =>
    split at h
    · next cb hcb => cases h; exact .fire n cb hs hcb
    · cases h
  · cases h; exact of_newEventHdl hs
  · next e => cases h; exact .removeEvent e hs
  · next e => cases h; exact .send e hs
  · cases h; exact of_appendTask hs
  · cases h; exact of_wakeupTask hs
  · cases h; exact of_tryWakeupTask hs
  · cases h; exact of_removeTask hs
  · cases h

lemma of_bodyStep {th : ThreadID} {oldCurr : TaskID} {rest : List Frame} (hf : m.fault = none)
    (hs : m.stack = .body id th oldCurr :: rest)
    (h : m.bodyStep id th oldCurr rest a = some m') : Rule m a m' := by
  unfold Machine.bodyStep at h
  split at h
  · next e =>
    cases h
    unfold Machine.registerEvent
    by_cases hname : m.sched.eventNameMap e = none
    · rw [if_pos hname]
      exact fail _
    · rw [if_neg hname]
      unfold Machine.insertWaiter
      dsimp only
      cases hl : m.sched.eventTaskIdListMap.lookup e with
      | none => exact .fault rfl rfl
      | some l =>
        dsimp only
        rw [if_neg (by simp [hf])]
        exact .wait e l id th oldCurr rest hs hl hname
  · next e =>
    cases h
    unfold Machine.insertWaiter
    split
    · exact fail _
    · next l hl => exact .insertWaiter e l id th oldCurr rest hs hl
  · next always =>
    split_ifs at h with hm
    cases h
    exact .awaitCallback always id th oldCurr rest hs hm
  · split_ifs at h with hm
    cases h
    exact .awaitPosedge id th oldCurr rest hs hm
  · split_ifs at h with hm
    cases h
    exact .awaitNegedge id th oldCurr rest hs hm
  · next y => cases h; exact .yield y id th oldCurr rest hs
  · cases h; exact fail _
  · exact of_codeStep (by rw [hs]; trivial) h

theorem of_step (h : m.step a = some m') : m.fault = none ∧ Rule m a m' := by
  unfold Machine.step at h
  split_ifs at h with hf
  replace hf : m.fault = none := by simpa using hf
  refine ⟨hf, ?_⟩
  split at h
  · next hs => cases h; exact of_scheduleTask hs
  · next hs => cases h; exact of_taskYielded hs
  · next hs => cases h; exact of_wakeupLoop hs
  · next hs => exact of_passStep hs h
  · next hs => exact of_bodyStep hf hs h
  · next hs => cases h; exact of_startPass hs
  · next hs _ => exact of_codeStep (by rw [hs]; trivial) h
  · cases h

lemma nextWaitNo_le (hr : Rule m a m') (hf : m'.fault = none) : m.nextWaitNo ≤ m'.nextWaitNo := by
  cases hr with
  | fault hf' | removeFault _ hf' | resumeFault _ _ _ _ _ _ _ _ _ hf' => simp [hf] at hf'
  | append => rw [startTask_nextWaitNo]; exact Nat.le_refl _
  | wait | insertWaiter => exact Nat.le_succ _
  | _ => exact Nat.le_refl _

end Rule

end Verilua
