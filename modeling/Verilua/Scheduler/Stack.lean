import Verilua.Scheduler.Rules

/-!
# The call stack

What holds of the stack in every reachable state: which calls can be below which, and that
`curr_task_id` is the task of the innermost body, so that `old_curr_task_id` restores it.
-/

namespace Verilua

open TransitionSystem

variable {m m' : Machine} {a : Act} {stack rest : List Frame}

/-! ### Shape -/

/-- The stack of a point where code runs or to which a call returns: a pass is at the bottom, and
every other call in progress is inside a body or a wake-up loop. -/
def Nested : List Frame → Prop
  | [] => True
  | [.pass ..] => True
  | .body .. :: rest => Nested rest
  | .wakeup .. :: rest => Nested rest
  | _ => False

/-- `Nested`, but for a call that is being entered or left. -/
def Shaped : List Frame → Prop
  | .call _ :: rest => Nested rest
  | .resumed .. :: rest => Nested rest
  | stack => Nested stack

lemma Nested.shaped (h : Nested stack) : Shaped stack := by
  cases stack with
  | nil => exact h
  | cons f rest =>
    cases f with
    | call | resumed => exact h.elim
    | body | wakeup | pass => exact h

lemma Shaped.nested_of_atCode (h : Shaped stack) (hc : AtCode stack) : Nested stack := by
  cases stack with
  | nil => exact h
  | cons f rest =>
    cases f with
    | body => exact h
    | call | resumed | wakeup | pass => exact hc.elim

lemma Shaped.pass_bottom {kind : PassKind} {start visited : Finset TaskID} {ret : Option TaskID}
    (h : Shaped (.pass kind start visited ret :: rest)) : rest = [] := by
  cases rest with
  | nil => rfl
  | cons => exact h.elim

lemma Shaped.step (h : Shaped m.stack) (hr : Rule m a m') (hf : m'.fault = none) :
    Shaped m'.stack := by
  cases hr with
  | fault hf' | removeFault _ hf' | resumeFault _ _ _ _ _ _ _ _ _ hf' => simp [hf] at hf'
  | skip id rest hs =>
    rw [hs] at h
    exact Nested.shaped h
  | resume id rest cnt th t hs =>
    rw [hs] at h
    exact h
  | yieldedLoop id th oldCurr y rest hs | yieldedReturn id th oldCurr y rest hs =>
    rw [hs] at h
    exact Nested.shaped h
  | loopWake next e w ws rest hs => rw [hs] at h; exact h
  | loopNext next e rest hs | loopTake next e l rest hs => rw [hs] at h; exact h
  | loopClose next rest hs =>
    rw [hs] at h
    exact Nested.shaped h
  | startPass => trivial
  | pickFired id kind start visited rest hs | pick id kind start visited ret rest hs =>
    rw [hs] at h
    cases h.pass_bottom
    trivial
  | passReturn id kind start visited rest hs =>
    rw [hs] at h
    cases h.pass_bottom
    trivial
  | endPass kind start visited rest hs =>
    rw [hs] at h
    cases h.pass_bottom
    trivial
  | fire n cb hs | restart _ id name body s hs => exact h.nested_of_atCode hs
  | append user id name body startNow s hs =>
    rcases startTask_stack (Machine.installTask { m with sched := s } id name body)
      id startNow with heq | heq
    · rw [heq]; exact h
    · rw [heq]; exact h.nested_of_atCode hs
  | newEventHdl | removeEvent | send | tryRunning | remove | removeWaiting | insertWaiter
  | awaitPosedge | awaitNegedge => exact h
  | wait e l id th oldCurr rest hs | awaitCallback _ id th oldCurr rest hs
  | yield y id th oldCurr rest hs =>
    rw [hs] at h
    exact h

/-! ### The current task -/

/-- The task of the innermost body. -/
def current : List Frame → TaskID
  | [] => nullTaskId
  | .body id _ _ :: _ => id
  | .resumed id _ _ _ :: _ => id
  | _ :: rest => current rest

/-- Every call in progress has saved the task of the body it was made from. -/
def Restores : List Frame → Prop
  | [] => True
  | .body _ _ oldCurr :: rest => oldCurr = current rest ∧ Restores rest
  | .resumed _ _ oldCurr _ :: rest => oldCurr = current rest ∧ Restores rest
  | _ :: rest => Restores rest

structure CurrentTask (m : Machine) : Prop where
  curr : m.sched.currTaskId = current m.stack
  restores : Restores m.stack

lemma settle_currTaskId (s : Scheduler) (mode : Mode) (id oldCurr : TaskID) (y : Yielded) :
    (s.settle mode id oldCurr y).currTaskId = oldCurr := by
  unfold Scheduler.settle Scheduler.removeTask'
  dsimp only
  split_ifs <;> rfl

lemma Chosen.currTaskId {s s' : Scheduler} {user : Option TaskID} {id : TaskID}
    (h : Chosen s user id s') : s'.currTaskId = s.currTaskId := by
  cases h with
  | given => rfl
  | fresh _ _ h => rw [(Scheduler.allocTaskId_eq_some h).2.2.2]

lemma ChosenEvent.currTaskId {s s' : Scheduler} {user : Option EventID} {e : EventID}
    (h : ChosenEvent s user e s') : s'.currTaskId = s.currTaskId := by
  cases h with
  | given => rfl
  | fresh _ _ h => rw [(Scheduler.allocEventId_eq_some h).2.2.2]

lemma CurrentTask.step (h : CurrentTask m) (hr : Rule m a m') (hf : m'.fault = none) :
    CurrentTask m' := by
  obtain ⟨hcurr, hrest⟩ := h
  cases hr with
  | fault hf' | removeFault _ hf' | resumeFault _ _ _ _ _ _ _ _ _ hf' => simp [hf] at hf'
  | skip id rest hs =>
    rw [hs] at hcurr hrest
    refine ⟨?_, hrest⟩
    exact ((keeps_clearUserRemoval _ id).currTaskId.trans
      (keeps_drainPendingRemoval _).currTaskId).trans hcurr
  | resume id rest cnt th t hs =>
    rw [hs] at hcurr hrest
    exact ⟨rfl, (keeps_drainPendingRemoval _).currTaskId.trans hcurr, hrest⟩
  | yieldedLoop id th oldCurr y rest hs | yieldedReturn id th oldCurr y rest hs =>
    rw [hs] at hrest
    exact ⟨(settle_currTaskId ..).trans hrest.1, hrest.2⟩
  | loopWake next e w ws rest hs | loopNext next e rest hs | loopTake next e l rest hs
  | loopClose next rest hs | passReturn id kind start visited rest hs
  | pickFired id kind start visited rest hs | pick id kind start visited ret rest hs
  | endPass kind start visited rest hs =>
    rw [hs] at hcurr hrest
    exact ⟨hcurr, hrest⟩
  | startPass kind hs =>
    rw [hs] at hcurr
    exact ⟨hcurr, trivial⟩
  | append user id name body startNow s hs hc =>
    have hsched : (Machine.installTask { m with sched := s } id name body).sched.currTaskId =
        m.sched.currTaskId := (keeps_clearUserRemoval s id).currTaskId.trans hc.currTaskId
    refine ⟨startTask_currTaskId.trans (hsched.trans ?_), ?_⟩
    all_goals
      rcases startTask_stack (Machine.installTask { m with sched := s } id name body)
        id startNow with heq | heq
    · rw [heq]; exact hcurr
    · rw [heq]; exact hcurr
    · rw [heq]; exact hrest
    · rw [heq]; exact hrest
  | restart _ id name body s hs hc => exact ⟨hc.keeps.currTaskId.trans hcurr, hrest⟩
  | newEventHdl name user e s hs hc => exact ⟨hc.currTaskId.trans hcurr, hrest⟩
  | remove id | removeWaiting id =>
    exact ⟨(keeps_flagUserRemoval _ id).currTaskId.trans hcurr, hrest⟩
  | fire | removeEvent | send | tryRunning | insertWaiter | awaitPosedge
  | awaitNegedge => exact ⟨hcurr, hrest⟩
  | wait e l id th oldCurr rest hs | awaitCallback _ id th oldCurr rest hs
  | yield y id th oldCurr rest hs =>
    rw [hs] at hcurr hrest
    exact ⟨hcurr, hrest⟩

/-! ### Runs -/

variable {mode : Mode} {ok : Machine → Act → Prop}

lemma shaped_of_reached (h : Machine.Reached mode ok m) : m.fault = none → Shaped m.stack := by
  refine Reach.invariant (I := fun m : Machine => m.fault = none → Shaped m.stack) h
    (fun _ => trivial) ?_
  intro m a m' _ ih _ hs hf
  obtain ⟨hm, hr⟩ := Rule.of_step hs
  exact (ih hm).step hr hf

lemma currentTask_of_reached (h : Machine.Reached mode ok m) : m.fault = none → CurrentTask m := by
  refine Reach.invariant (I := fun m : Machine => m.fault = none → CurrentTask m) h
    (fun _ => ⟨rfl, trivial⟩) ?_
  intro m a m' _ ih _ hs hf
  obtain ⟨hm, hr⟩ := Rule.of_step hs
  exact (ih hm).step hr hf

lemma Rule.mode_eq (hr : Rule m a m') (hf : m'.fault = none) : m'.mode = m.mode := by
  cases hr with
  | fault hf' | removeFault _ hf' | resumeFault _ _ _ _ _ _ _ _ _ hf' => simp [hf] at hf'
  | append => unfold Machine.startTask; split_ifs <;> rfl
  | _ => rfl

lemma mode_of_reached (h : Machine.Reached mode ok m) : m.fault = none → m.mode = mode := by
  refine Reach.invariant (I := fun m : Machine => m.fault = none → m.mode = mode) h
    (fun _ => rfl) ?_
  intro m a m' _ ih _ hs hf
  obtain ⟨hm, hr⟩ := Rule.of_step hs
  exact (hr.mode_eq hf).trans (ih hm)

end Verilua
