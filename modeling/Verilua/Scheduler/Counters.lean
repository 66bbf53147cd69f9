import Verilua.Scheduler.Tasks

/-!
# The counters of the removal tables

The number of pending removals is that of the list. The number of flags exceeds that of the flagged
ids by one for each `remove_task` of an id that was flagged already, and nothing makes up for it.
-/

namespace Verilua

open TransitionSystem

variable {s s' : Scheduler} {m m' : Machine} {a : Act} {as : List Act} {mode : Mode} {id : TaskID}

/-- Each counter is the number of ids in its table. -/
structure Scheduler.CountsMatch (s : Scheduler) : Prop where
  user : s.nrUserRemovalTasks = s.userRemovalTasksSet.card
  pending : s.nrPendingRemovalTasks = s.pendingRemovalTasks.length

/-- By how much the counter of the flags exceeds their number. -/
def Scheduler.surplus (s : Scheduler) : Int :=
  s.nrUserRemovalTasks - s.userRemovalTasksSet.card

/-- The id that is removed runs and has its flag already. -/
def Machine.flagsTwice (m : Machine) : Act → Bool
  | .removeTask id =>
    decide (id ∈ m.sched.taskNameMapRunning ∧ id ∈ m.sched.userRemovalTasksSet)
  | _ => false

/-- What a step adds to the surplus. -/
def Machine.flagged (m : Machine) (a : Act) : Int := if m.flagsTwice a then 1 else 0

lemma flagged_nonneg : 0 ≤ m.flagged a := by
  unfold Machine.flagged
  split_ifs
  · exact Int.one_nonneg
  · exact le_refl 0

lemma flagged_eq_zero : m.flagged a = 0 ↔ m.flagsTwice a = false := by
  unfold Machine.flagged
  cases m.flagsTwice a <;> simp

/-! ### One step -/

lemma surplus_congr (hn : s'.nrUserRemovalTasks = s.nrUserRemovalTasks)
    (hs : s'.userRemovalTasksSet = s.userRemovalTasksSet) : s'.surplus = s.surplus := by
  rw [Scheduler.surplus, hn, hs, Scheduler.surplus]

lemma surplus_drain (s : Scheduler) : s.drainPendingRemoval.surplus = s.surplus :=
  surplus_congr (drainPendingRemoval_nrUserRemovalTasks s)
    (drainPendingRemoval_userRemovalTasksSet s)

lemma surplus_clear (s : Scheduler) (id : TaskID) :
    (s.clearUserRemoval id).surplus = s.surplus := by
  unfold Scheduler.clearUserRemoval
  split_ifs with hid
  · have hcard := Finset.card_erase_add_one hid
    simp only [Scheduler.surplus]
    omega
  · rfl

lemma surplus_flag (m : Machine) (id : TaskID) :
    (m.sched.flagUserRemoval id).surplus = m.sched.surplus + m.flagged (.removeTask id) := by
  unfold Scheduler.flagUserRemoval
  split_ifs with hrun
  · by_cases hid : id ∈ m.sched.userRemovalTasksSet
    · have hflag : m.flagged (.removeTask id) = 1 := by
        simp [Machine.flagged, Machine.flagsTwice, hrun, hid]
      rw [hflag]
      simp only [Scheduler.surplus, Finset.insert_eq_of_mem hid]
      omega
    · have hflag : m.flagged (.removeTask id) = 0 := by
        simp [Machine.flagged, Machine.flagsTwice, hid]
      have hcard := Finset.card_insert_of_notMem hid
      rw [hflag]
      simp only [Scheduler.surplus]
      omega
  · have hflag : m.flagged (.removeTask id) = 0 := by
      simp [Machine.flagged, Machine.flagsTwice, hrun]
    rw [hflag, add_zero]

lemma surplus_settle (s : Scheduler) (mode : Mode) (id oldCurr : TaskID) (y : Yielded) :
    (s.settle mode id oldCurr y).surplus = s.surplus := by
  unfold Scheduler.settle Scheduler.removeTask'
  dsimp only
  split_ifs <;> rfl

lemma Cleaned.surplus (hc : Cleaned s id a s') : s'.surplus = s.surplus := by
  cases hc with
  | notRunning | pending => rfl
  | flagged | tried => exact surplus_clear s id

lemma Chosen.surplus {user : Option TaskID} (hc : Chosen s user id s') :
    s'.surplus = s.surplus := by
  cases hc with
  | given => rfl
  | fresh _ _ h =>
    rw [(Scheduler.allocTaskId_eq_some h).2.2.2]
    rfl

lemma ChosenEvent.surplus {user : Option EventID} {e : EventID} (hc : ChosenEvent s user e s') :
    s'.surplus = s.surplus := by
  cases hc with
  | given => rfl
  | fresh _ _ h =>
    rw [(Scheduler.allocEventId_eq_some h).2.2.2]
    rfl

lemma startTask_surplus {startNow : Bool} :
    (m.startTask id startNow).sched.surplus = m.sched.surplus := by
  unfold Machine.startTask
  split_ifs <;> rfl

lemma Cleaned.flagged_eq_zero (hc : Cleaned s id a s') : m.flagged a = 0 := by
  cases hc <;> rfl

lemma Rule.surplus (hr : Rule m a m') (hf : m'.fault = none) :
    m'.sched.surplus = m.sched.surplus + m.flagged a := by
  cases hr with
  | fault hf' | removeFault _ hf' | resumeFault _ _ _ _ _ _ _ _ _ hf' => simp [hf] at hf'
  | skip id =>
    have h := (surplus_clear m.sched.drainPendingRemoval id).trans (surplus_drain m.sched)
    exact h.trans (add_zero _).symm
  | resume => exact (surplus_drain m.sched).trans (add_zero _).symm
  | yieldedLoop id th oldCurr y | yieldedReturn id th oldCurr y =>
    exact (surplus_settle ..).trans (add_zero _).symm
  | append user id name body startNow s hs hc =>
    rw [startTask_surplus]
    exact ((surplus_clear s id).trans hc.surplus).trans (add_zero _).symm
  | restart _ id name body s hs hc =>
    rw [hc.flagged_eq_zero, add_zero]
    exact hc.surplus
  | newEventHdl name user e s hs hc => exact hc.surplus.trans (add_zero _).symm
  | remove id | removeWaiting id => exact surplus_flag m id
  | _ => exact (add_zero _).symm

/-! ### Runs -/

lemma fault_of_run (h : run Machine.step m as = some m') (hf : m'.fault = none) :
    m.fault = none := by
  cases as with
  | nil =>
    cases h
    exact hf
  | cons a as =>
    obtain ⟨m₁, hs, -⟩ := Option.bind_eq_some_iff.mp h
    exact (Rule.of_step hs).1

/-- The surplus never shrinks, and it stays exactly where no flag is set twice. -/
lemma surplus_run (h : run Machine.step m as = some m') (hf : m'.fault = none) :
    m.sched.surplus ≤ m'.sched.surplus ∧ (m'.sched.surplus = m.sched.surplus ↔
      Along Machine.step (fun m a => m.flagsTwice a = false) m as) := by
  induction as generalizing m with
  | nil =>
    cases h
    exact ⟨le_refl _, fun _ => trivial, fun _ => rfl⟩
  | cons a as ih =>
    obtain ⟨m₁, hs, hrun⟩ := Option.bind_eq_some_iff.mp h
    obtain ⟨hle, hiff⟩ := ih hrun
    have hstep := (Rule.of_step hs).2.surplus (fault_of_run hrun hf)
    have hnonneg := flagged_nonneg (m := m) (a := a)
    refine ⟨by omega, ?_⟩
    constructor
    · intro heq
      refine ⟨flagged_eq_zero.mp (by omega), fun m₂ hs₂ => ?_⟩
      rw [hs] at hs₂
      cases hs₂
      exact hiff.mp (by omega)
    · rintro ⟨honce, hrest⟩
      have hzero := flagged_eq_zero.mpr honce
      have heq := hiff.mpr (hrest m₁ hs)
      omega

lemma counted_of_run (h : run Machine.step (Machine.init mode) as = some m) (hf : m.fault = none) :
    m.sched.Counted := counted_of_reached (reach_of_run h) hf

/-- In the state that a run reaches, the counters match their tables if and only if no step of the
run removed an id that ran and was flagged already. -/
theorem countsMatch_iff (h : run Machine.step (Machine.init mode) as = some m)
    (hf : m.fault = none) : m.sched.CountsMatch ↔
      Along Machine.step (fun m a => m.flagsTwice a = false) (Machine.init mode) as := by
  have hpending := (counted_of_run h hf).pending
  obtain ⟨-, hiff⟩ := surplus_run h hf
  have hinit : (Machine.init mode).sched.surplus = 0 := rfl
  rw [← hiff, hinit]
  constructor
  · intro hmatch
    rw [Scheduler.surplus, hmatch.user, sub_self]
  · intro hzero
    exact ⟨sub_eq_zero.mp hzero, hpending⟩

/-- A task is removed, and removed again after it was started again. -/
def removedOnce : List Act :=
  [.appendTask none "A" 0 false, .removeTask 1, .tryWakeupTask 1, .enter, .yield .noop, .yielded,
   .removeTask 1]

theorem countsMatch_removedOnce : ∃ m, run Machine.step (Machine.init .normal) removedOnce = some m ∧
    m.fault = none ∧ (m.sched.CountsMatch ↔
      Along Machine.step (fun m a => m.flagsTwice a = false) (Machine.init .normal) removedOnce) := by
  have hrun : (run Machine.step (Machine.init .normal) removedOnce).map (fun m => m.fault) =
      some none := by decide +kernel
  obtain ⟨m, hm, hf⟩ := Option.map_eq_some_iff.mp hrun
  exact ⟨m, hm, hf, countsMatch_iff hm hf⟩

/-- A task is removed twice in a row. -/
def removedTwice : List Act := [.appendTask none "A" 0 false, .removeTask 1, .removeTask 1]

theorem not_countsMatch :
    ¬ ∀ mode m, Machine.Reached mode Unguarded m → m.fault = none → m.sched.CountsMatch := by
  intro h
  have hrun : (run Machine.step (Machine.init .normal) removedTwice).map (fun m =>
      (m.fault, m.sched.nrUserRemovalTasks, m.sched.userRemovalTasksSet.card)) =
      some (none, 2, 1) := by decide +kernel
  obtain ⟨m, hm, heq⟩ := Option.map_eq_some_iff.mp hrun
  obtain ⟨hf, hnr, hcard⟩ := Prod.mk.inj heq |>.imp id Prod.mk.inj
  have huser := (h .normal m (reach_of_run hm) hf).user
  rw [hnr, hcard] at huser
  cases huser

end Verilua
