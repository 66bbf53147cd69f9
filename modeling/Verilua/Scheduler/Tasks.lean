import Verilua.Scheduler.Bus

/-!
# Tasks, their coroutines and their removal

The book-keeping of tasks in every reachable state: the two counters of the removal tables, the
coroutine of each task, and what is known of an id that has been registered once.
-/

namespace Verilua

open TransitionSystem

variable {m m' : Machine} {a : Act} {mode : Mode} {ok : Machine → Act → Prop} {id id' : TaskID}
  {th : ThreadID}

/-! ### The removal tables -/

/-- The two counters agree with the tables they count. -/
structure Scheduler.Counted (s : Scheduler) : Prop where
  pending : s.nrPendingRemovalTasks = s.pendingRemovalTasks.length
  user : (s.userRemovalTasksSet.card : Int) ≤ s.nrUserRemovalTasks

section Tables

variable {s s' : Scheduler}

lemma Scheduler.Counted.nrUser_pos (h : s.Counted) (hid : id ∈ s.userRemovalTasksSet) :
    0 < s.nrUserRemovalTasks := by
  have hcard : 0 < s.userRemovalTasksSet.card := Finset.card_pos.mpr ⟨id, hid⟩
  have := h.user
  omega

lemma mem_foldl_unregister (l : List TaskID) :
    id ∈ (l.foldl Scheduler.unregister s).taskNameMapRunning ↔
      id ∈ s.taskNameMapRunning ∧ id ∉ l := by
  induction l generalizing s with
  | nil => simp
  | cons id' l ih =>
    rw [List.foldl_cons, ih]
    simp only [Scheduler.unregister, Finmap.mem_erase, List.mem_cons, not_or]
    tauto

lemma Scheduler.Counted.mem_drain (h : s.Counted) :
    id ∈ s.drainPendingRemoval.taskNameMapRunning ↔
      id ∈ s.taskNameMapRunning ∧ id ∉ s.pendingRemovalTasks := by
  unfold Scheduler.drainPendingRemoval
  split_ifs with hpos
  · rw [h.pending, List.take_length]
    exact mem_foldl_unregister _
  · have hnil : s.pendingRemovalTasks = [] := by
      rw [← List.length_eq_zero_iff, ← h.pending]
      omega
    simp [hnil]

lemma Scheduler.Counted.drain_pending (h : s.Counted) :
    s.drainPendingRemoval.pendingRemovalTasks = [] := by
  unfold Scheduler.drainPendingRemoval
  split_ifs with hpos
  · rfl
  · rw [← List.length_eq_zero_iff, ← h.pending]
    omega

lemma Scheduler.Counted.drain (h : s.Counted) : s.drainPendingRemoval.Counted := by
  refine ⟨?_, by simpa using h.user⟩
  rw [h.drain_pending]
  unfold Scheduler.drainPendingRemoval
  split_ifs with hpos
  · rfl
  · exact Nat.eq_zero_of_not_pos hpos

@[simp] lemma clearUserRemoval_flags (s : Scheduler) (id : TaskID) :
    (s.clearUserRemoval id).userRemovalTasksSet = s.userRemovalTasksSet.erase id := by
  unfold Scheduler.clearUserRemoval
  split_ifs with hid
  · rfl
  · exact (Finset.erase_eq_of_notMem hid).symm

@[simp] lemma clearUserRemoval_running (s : Scheduler) (id : TaskID) :
    (s.clearUserRemoval id).taskNameMapRunning = s.taskNameMapRunning := by
  unfold Scheduler.clearUserRemoval
  split_ifs <;> rfl

@[simp] lemma clearUserRemoval_pending (s : Scheduler) (id : TaskID) :
    (s.clearUserRemoval id).pendingRemovalTasks = s.pendingRemovalTasks := by
  unfold Scheduler.clearUserRemoval
  split_ifs <;> rfl

lemma Scheduler.Counted.clear (h : s.Counted) (id : TaskID) : (s.clearUserRemoval id).Counted := by
  unfold Scheduler.clearUserRemoval
  split_ifs with hid
  · refine ⟨h.pending, ?_⟩
    show ((s.userRemovalTasksSet.erase id).card : Int) ≤ s.nrUserRemovalTasks - 1
    have hcard := Finset.card_erase_add_one hid
    have := h.user
    omega
  · exact h

lemma mem_flagUserRemoval_flags :
    id' ∈ (s.flagUserRemoval id).userRemovalTasksSet ↔
      id' ∈ s.userRemovalTasksSet ∨ id' = id ∧ id ∈ s.taskNameMapRunning := by
  unfold Scheduler.flagUserRemoval
  split_ifs with hid
  · simp [hid, or_comm]
  · simp [hid]

@[simp] lemma flagUserRemoval_running (s : Scheduler) (id : TaskID) :
    (s.flagUserRemoval id).taskNameMapRunning = s.taskNameMapRunning := by
  unfold Scheduler.flagUserRemoval
  split_ifs <;> rfl

@[simp] lemma flagUserRemoval_pending (s : Scheduler) (id : TaskID) :
    (s.flagUserRemoval id).pendingRemovalTasks = s.pendingRemovalTasks := by
  unfold Scheduler.flagUserRemoval
  split_ifs <;> rfl

lemma Scheduler.Counted.flag (h : s.Counted) (id : TaskID) : (s.flagUserRemoval id).Counted := by
  unfold Scheduler.flagUserRemoval
  split_ifs with hid
  · refine ⟨h.pending, ?_⟩
    show ((insert id s.userRemovalTasksSet).card : Int) ≤ s.nrUserRemovalTasks + 1
    have hcard := Finset.card_insert_le id s.userRemovalTasksSet
    have := h.user
    omega
  · exact h

variable (s) (mode) (oldCurr : TaskID) (y : Yielded)

@[simp] lemma settle_running :
    (s.settle mode id oldCurr y).taskNameMapRunning = s.taskNameMapRunning := by
  unfold Scheduler.settle Scheduler.removeTask'
  dsimp only
  split_ifs <;> rfl

@[simp] lemma settle_flags :
    (s.settle mode id oldCurr y).userRemovalTasksSet = s.userRemovalTasksSet := by
  unfold Scheduler.settle Scheduler.removeTask'
  dsimp only
  split_ifs <;> rfl

lemma settle_pending : (s.settle mode id oldCurr y).pendingRemovalTasks =
    if y.finishes then s.pendingRemovalTasks ++ [id] else s.pendingRemovalTasks := by
  unfold Scheduler.settle Scheduler.removeTask'
  dsimp only
  split_ifs <;> rfl

variable {s}

lemma Scheduler.Counted.settle (h : s.Counted) (id : TaskID) : (s.settle mode id oldCurr y).Counted := by
  refine ⟨?_, ?_⟩
  · rw [settle_pending]
    unfold Scheduler.settle Scheduler.removeTask'
    dsimp only
    split_ifs <;> simp [h.pending]
  · rw [settle_flags]
    refine h.user.trans (le_of_eq ?_)
    unfold Scheduler.settle Scheduler.removeTask'
    dsimp only
    split_ifs <;> rfl

lemma Cleaned.counted (hc : Cleaned s id a s') (h : s.Counted) : s'.Counted := by
  cases hc with
  | notRunning => exact h
  | flagged | tried => exact h.clear id
  | pending _ _ i hi =>
    refine ⟨?_, h.user⟩
    show s.nrPendingRemovalTasks - 1 = (s.pendingRemovalTasks.eraseIdx i).length
    obtain ⟨hlt, -⟩ := List.findIdx?_eq_some_iff_getElem.mp hi
    rw [List.length_eraseIdx_of_lt hlt, h.pending]

lemma Chosen.counted {user : Option TaskID} (hc : Chosen s user id s') (h : s.Counted) :
    s'.Counted := by
  cases hc with
  | given => exact h
  | fresh _ _ h' =>
    rw [(Scheduler.allocTaskId_eq_some h').2.2.2]
    exact ⟨h.pending, h.user⟩

lemma ChosenEvent.counted {user : Option EventID} {e : EventID} (hc : ChosenEvent s user e s')
    (h : s.Counted) : s'.Counted := by
  cases hc with
  | given => exact h
  | fresh _ _ h' =>
    rw [(Scheduler.allocEventId_eq_some h').2.2.2]
    exact ⟨h.pending, h.user⟩

end Tables

lemma startTask_counted {startNow : Bool} (h : m.sched.Counted) :
    (m.startTask id startNow).sched.Counted := by
  unfold Machine.startTask
  split_ifs
  · exact ⟨h.pending, h.user⟩
  · exact h

lemma counted_step (h : m.sched.Counted) (hr : Rule m a m') (hf : m'.fault = none) :
    m'.sched.Counted := by
  cases hr with
  | fault hf' | removeFault _ hf' | resumeFault _ _ _ _ _ _ _ _ _ hf' => simp [hf] at hf'
  | skip id =>
    have hs := h.drain.clear id
    exact ⟨hs.pending, hs.user⟩
  | resume => exact ⟨h.drain.pending, h.drain.user⟩
  | yieldedLoop id th oldCurr y | yieldedReturn id th oldCurr y =>
    have hs := h.settle m.mode oldCurr y id
    exact ⟨hs.pending, hs.user⟩
  | append user id name body startNow s hs hc =>
    have hs := (hc.counted h).clear id
    exact startTask_counted ⟨hs.pending, hs.user⟩
  | restart _ id name body s hs hc =>
    have hs := hc.counted h
    exact ⟨hs.pending, hs.user⟩
  | newEventHdl name user e s hs hc =>
    have hs := hc.counted h
    exact ⟨hs.pending, hs.user⟩
  | remove id | removeWaiting id =>
    have hs := h.flag id
    exact ⟨hs.pending, hs.user⟩
  | _ => exact ⟨h.pending, h.user⟩

lemma counted_of_reached (h : Machine.Reached mode ok m) : m.fault = none → m.sched.Counted := by
  refine Reach.invariant (I := fun m : Machine => m.fault = none → m.sched.Counted) h
    (fun _ => ⟨rfl, le_refl _⟩) ?_
  intro m a m' _ ih _ hs hf
  obtain ⟨hm, hr⟩ := Rule.of_step hs
  exact counted_step (ih hm) hr hf

/-! ### Coroutines -/

/-- The task and the coroutine of a call that has resumed one. -/
def Frame.runs? : Frame → Option (TaskID × ThreadID)
  | .body id th _ => some (id, th)
  | .resumed id th _ _ => some (id, th)
  | _ => none

def Machine.runs (m : Machine) : List (TaskID × ThreadID) := m.stack.filterMap Frame.runs?

/-- A coroutine belongs to one task, whether it is the task's current one or an earlier one that
still runs. -/
structure Coroutines (m : Machine) : Prop where
  bound : ∀ th, (m.threads th).isSome → th < m.nextThread
  thread : ∀ id th, m.sched.taskCoroutineMap id = some th → (m.threads th).isSome
  injective : ∀ id id' th, m.sched.taskCoroutineMap id = some th →
    m.sched.taskCoroutineMap id' = some th → id = id'
  runs : ∀ p ∈ m.runs, (m.threads p.2).isSome ∧
    ∀ id, m.sched.taskCoroutineMap id = some p.2 → id = p.1

lemma Coroutines.mono (h : Coroutines m)
    (hc : m'.sched.taskCoroutineMap = m.sched.taskCoroutineMap)
    (hn : m'.nextThread = m.nextThread)
    (ht : ∀ th, (m'.threads th).isSome = (m.threads th).isSome)
    (hr : ∀ p ∈ m'.runs, p ∈ m.runs ∨ m.sched.taskCoroutineMap p.1 = some p.2) :
    Coroutines m' := by
  refine ⟨fun th hth => ?_, fun id th hth => ?_, ?_, fun p hp => ?_⟩
  · rw [hn]; exact h.bound th (ht th ▸ hth)
  · rw [ht]; exact h.thread id th (hc ▸ hth)
  · rw [hc]; exact h.injective
  · rw [ht, hc]
    rcases hr p hp with hp | hp
    · exact h.runs p hp
    · exact ⟨h.thread _ _ hp, fun id hid => h.injective _ _ _ hid hp⟩

lemma Coroutines.coroCreate {s : Scheduler} (h : Coroutines m)
    (hc : s.taskCoroutineMap = m.sched.taskCoroutineMap) (id : TaskID) (body : BodyID) :
    Coroutines (Machine.coroCreate { m with sched := s } id body) := by
  have hnew : ∀ id' th', m.sched.taskCoroutineMap id' = some th' → th' ≠ m.nextThread :=
    fun id' th' hth => Nat.ne_of_lt (h.bound _ (h.thread id' th' hth))
  have hupd : ∀ th', (m.threads th').isSome →
      (Function.update m.threads m.nextThread (some ⟨body, .suspended, false⟩) th').isSome := by
    intro th' hth
    rw [Function.update_of_ne (Nat.ne_of_lt (h.bound th' hth))]
    exact hth
  refine ⟨fun th' hth => ?_, fun id' th' hth => ?_, fun id₁ id₂ th' h₁ h₂ => ?_, fun p hp => ?_⟩
  · by_cases heq : th' = m.nextThread
    · subst heq; exact Nat.lt_succ_self _
    · refine Nat.lt_succ_of_lt (h.bound th' ?_)
      simpa [Machine.coroCreate, Function.update_of_ne heq] using hth
  · simp only [Machine.coroCreate, hc] at hth ⊢
    by_cases heq : id' = id
    · subst heq
      rw [Function.update_self] at hth
      cases hth
      simp
    · rw [Function.update_of_ne heq] at hth
      exact hupd th' (h.thread id' th' hth)
  · simp only [Machine.coroCreate, hc] at h₁ h₂
    by_cases e₁ : id₁ = id <;> by_cases e₂ : id₂ = id
    · rw [e₁, e₂]
    · subst e₁
      rw [Function.update_self] at h₁
      rw [Function.update_of_ne e₂] at h₂
      cases h₁
      exact absurd rfl (hnew _ _ h₂)
    · subst e₂
      rw [Function.update_self] at h₂
      rw [Function.update_of_ne e₁] at h₁
      cases h₂
      exact absurd rfl (hnew _ _ h₁)
    · rw [Function.update_of_ne e₁] at h₁
      rw [Function.update_of_ne e₂] at h₂
      exact h.injective _ _ _ h₁ h₂
  · obtain ⟨hth, howner⟩ := h.runs p hp
    refine ⟨hupd p.2 hth, fun id' hid => ?_⟩
    simp only [Machine.coroCreate, hc] at hid
    by_cases heq : id' = id
    · subst heq
      rw [Function.update_self] at hid
      exact absurd (Option.some.inj hid).symm (Nat.ne_of_lt (h.bound _ hth))
    · rw [Function.update_of_ne heq] at hid
      exact howner id' hid

lemma Coroutines.finished_coroCreate {s : Scheduler} (h : Coroutines m)
    (hc : s.taskCoroutineMap = m.sched.taskCoroutineMap) {body : BodyID} {t' : Thread}
    (hth : (Machine.coroCreate { m with sched := s } id body).sched.taskCoroutineMap id' = some th)
    (ht : (Machine.coroCreate { m with sched := s } id body).threads th = some t')
    (hfin : t'.finished = true) :
    id ≠ id' ∧ m.sched.taskCoroutineMap id' = some th ∧ m.threads th = some t' := by
  simp only [Machine.coroCreate, hc] at hth ht
  by_cases heq : id' = id
  · subst heq
    rw [Function.update_self] at hth
    cases hth
    rw [Function.update_self] at ht
    cases ht
    cases hfin
  · rw [Function.update_of_ne heq] at hth
    rw [Function.update_of_ne (Nat.ne_of_lt (h.bound _ (h.thread _ _ hth)))] at ht
    exact ⟨fun h => heq h.symm, hth, ht⟩

lemma isSome_update_map (f : ThreadID → Option Thread) (th th' : ThreadID) (g : Thread → Thread) :
    (Function.update f th ((f th).map g) th').isSome = (f th').isSome := by
  by_cases h : th' = th
  · subst h; simp
  · rw [Function.update_of_ne h]

lemma settle_taskCoroutineMap (s : Scheduler) (mode : Mode) (id oldCurr : TaskID) (y : Yielded) :
    (s.settle mode id oldCurr y).taskCoroutineMap = s.taskCoroutineMap := by
  unfold Scheduler.settle Scheduler.removeTask'
  dsimp only
  split_ifs <;> rfl

lemma Chosen.taskCoroutineMap {s s' : Scheduler} {user : Option TaskID}
    (h : Chosen s user id s') : s'.taskCoroutineMap = s.taskCoroutineMap := by
  cases h with
  | given => rfl
  | fresh _ _ h => rw [(Scheduler.allocTaskId_eq_some h).2.2.2]

lemma ChosenEvent.taskCoroutineMap {s s' : Scheduler} {user : Option EventID} {e : EventID}
    (h : ChosenEvent s user e s') : s'.taskCoroutineMap = s.taskCoroutineMap := by
  cases h with
  | given => rfl
  | fresh _ _ h => rw [(Scheduler.allocEventId_eq_some h).2.2.2]

lemma Coroutines.startTask {startNow : Bool} (h : Coroutines m) :
    Coroutines (m.startTask id startNow) := by
  unfold Machine.startTask
  split_ifs
  · exact h.mono rfl rfl (fun _ => rfl) fun p hp => .inl hp
  · exact h

lemma Coroutines.step (h : Coroutines m) (hr : Rule m a m') (hf : m'.fault = none) :
    Coroutines m' := by
  cases hr with
  | fault hf' | removeFault _ hf' | resumeFault _ _ _ _ _ _ _ _ _ hf' => simp [hf] at hf'
  | skip id rest hs =>
    refine h.mono (keeps_skip ..).taskCoroutineMap rfl (fun _ => rfl) fun p hp => .inl ?_
    rw [Machine.runs, hs]
    exact hp
  | resume id rest cnt th t hs _ _ hc ht =>
    refine h.mono (keeps_drainPendingRemoval _).taskCoroutineMap rfl (fun th' => ?_) fun p hp => ?_
    · have hmap := isSome_update_map m.threads th th' fun t => { t with status := .active }
      rw [ht] at hmap
      exact hmap
    · rcases List.mem_cons.mp hp with rfl | hp
      · exact .inr hc
      · left
        rw [Machine.runs, hs]
        exact hp
  | yieldedLoop id th oldCurr y rest hs | yieldedReturn id th oldCurr y rest hs =>
    refine h.mono (settle_taskCoroutineMap ..) rfl (fun _ => rfl) fun p hp => .inl ?_
    rw [Machine.runs, hs]
    exact List.mem_cons_of_mem _ hp
  | loopWake next e w ws rest hs | loopNext next e rest hs | loopTake next e l rest hs
  | loopClose next rest hs | pickFired id kind start visited rest hs
  | pick id kind start visited ret rest hs | passReturn id kind start visited rest hs
  | endPass kind start visited rest hs =>
    refine h.mono rfl rfl (fun _ => rfl) fun p hp => .inl ?_
    rw [Machine.runs, hs]
    exact hp
  | startPass kind hs => exact h.mono rfl rfl (fun _ => rfl) fun p hp => by cases hp
  | newEventHdl name user e s hs hc =>
    exact h.mono hc.taskCoroutineMap rfl (fun _ => rfl) fun p hp => .inl hp
  | append user id name body startNow s hs hc =>
    refine Coroutines.startTask (h.coroCreate ?_ id body)
    exact (keeps_clearUserRemoval s id).taskCoroutineMap.trans hc.taskCoroutineMap
  | restart _ id name body s hs hc =>
    have hnew := h.coroCreate (s := { s with
      taskNameMapRunning := s.taskNameMapRunning.insert id name
      taskFiredStatusMap := Function.update s.taskFiredStatusMap id true })
      hc.keeps.taskCoroutineMap id body
    exact hnew.mono rfl rfl (fun _ => rfl) fun p hp => .inl hp
  | remove id | removeWaiting id =>
    exact h.mono (keeps_flagUserRemoval ..).taskCoroutineMap rfl (fun _ => rfl) fun p hp => .inl hp
  | wait e l id th oldCurr rest hs | awaitCallback _ id th oldCurr rest hs
  | yield y id th oldCurr rest hs =>
    refine h.mono rfl rfl (fun th' => isSome_update_map ..) fun p hp => .inl ?_
    rw [Machine.runs, hs]
    exact hp
  | fire | removeEvent | send | tryRunning | insertWaiter | awaitPosedge | awaitNegedge =>
    exact h.mono rfl rfl (fun _ => rfl) fun p hp => .inl hp

lemma coroutines_of_reached (h : Machine.Reached mode ok m) : m.fault = none → Coroutines m := by
  refine Reach.invariant (I := fun m : Machine => m.fault = none → Coroutines m) h ?_ ?_
  · intro _
    constructor <;> simp [Machine.init, Scheduler.init, Machine.runs]
  · intro m a m' _ ih _ hs hf
    obtain ⟨hm, hr⟩ := Rule.of_step hs
    exact (ih hm).step hr hf

/-! ### Registered ids -/

/-- What `append_task` has left in the tables for every id it was ever called with, and for no
other. -/
structure Scheduler.Registered (s : Scheduler) : Prop where
  valid : ∀ id, s.taskNameMapArchived id ≠ none → isValidTaskId id = true
  body : ∀ id, s.taskNameMapArchived id ≠ none → (s.taskBodyMap id).isSome
  count : ∀ id, s.taskNameMapArchived id ≠ none → (s.taskExecutionCountMap id).isSome
  coroutine : ∀ id, s.taskNameMapArchived id ≠ none ↔ (s.taskCoroutineMap id).isSome
  next : schedulerMinTaskId ≤ s.nextTaskId

section Registered

variable {s s' : Scheduler}

lemma Scheduler.Registered.of_keeps (h : s.Registered) (hk : Keeps s s')
    (hcount : ∀ id, (s.taskExecutionCountMap id).isSome → (s'.taskExecutionCountMap id).isSome) :
    s'.Registered := by
  refine ⟨fun id hid => ?_, fun id hid => ?_, fun id hid => ?_, fun id => ?_, ?_⟩
  · rw [hk.taskNameMapArchived] at hid
    exact h.valid id hid
  · rw [hk.taskNameMapArchived] at hid
    rw [hk.taskBodyMap]
    exact h.body id hid
  · rw [hk.taskNameMapArchived] at hid
    exact hcount id (h.count id hid)
  · rw [hk.taskNameMapArchived, hk.taskCoroutineMap]
    exact h.coroutine id
  · rw [hk.nextTaskId]
    exact h.next

lemma isSome_update {f : TaskID → Option Nat} {n : Nat} (h : (f id').isSome) :
    (Function.update f id (some n) id').isSome := by
  by_cases heq : id' = id
  · subst heq; simp
  · rw [Function.update_of_ne heq]; exact h

lemma foldl_unregister_count (l : List TaskID) (s : Scheduler)
    (h : (s.taskExecutionCountMap id).isSome) :
    ((l.foldl Scheduler.unregister s).taskExecutionCountMap id).isSome := by
  induction l generalizing s with
  | nil => exact h
  | cons id' l ih => exact ih _ (isSome_update h)

lemma Scheduler.Registered.drain (h : s.Registered) : s.drainPendingRemoval.Registered := by
  refine h.of_keeps (keeps_drainPendingRemoval s) fun id hid => ?_
  unfold Scheduler.drainPendingRemoval
  split_ifs
  · exact foldl_unregister_count _ s hid
  · exact hid

lemma clearUserRemoval_count (s : Scheduler) (id : TaskID) :
    (s.clearUserRemoval id).taskExecutionCountMap = s.taskExecutionCountMap := by
  unfold Scheduler.clearUserRemoval
  split_ifs <;> rfl

lemma Scheduler.Registered.clear (h : s.Registered) (id : TaskID) : (s.clearUserRemoval id).Registered :=
  h.of_keeps (keeps_clearUserRemoval s id) fun id' hid => by rwa [clearUserRemoval_count]

lemma Cleaned.registered (hc : Cleaned s id a s') (h : s.Registered) : s'.Registered := by
  cases hc with
  | notRunning => exact h
  | flagged | tried => exact h.clear id
  | pending => exact ⟨h.valid, h.body, h.count, h.coroutine, h.next⟩

lemma Scheduler.Registered.settle (h : s.Registered) (mode : Mode) (oldCurr : TaskID)
    (y : Yielded) (id : TaskID) : (s.settle mode id oldCurr y).Registered := by
  unfold Scheduler.settle Scheduler.removeTask'
  dsimp only
  split_ifs <;> exact ⟨h.valid, h.body, h.count, h.coroutine, h.next⟩

lemma Chosen.valid {user : Option TaskID} (hc : Chosen s user id s') (h : s.Registered) :
    isValidTaskId id = true := by
  cases hc with
  | given _ hv => exact hv
  | fresh _ _ h' =>
    obtain ⟨-, hle, hlt, -⟩ := Scheduler.allocTaskId_eq_some h'
    have hmin := h.next
    simp only [isValidTaskId, Bool.and_eq_true, decide_eq_true_eq]
    exact ⟨Nat.le_of_lt hlt, Nat.le_trans hmin hle⟩

lemma Chosen.registered {user : Option TaskID} (hc : Chosen s user id s') (h : s.Registered) :
    s'.Registered := by
  cases hc with
  | given => exact h
  | fresh _ _ h' =>
    obtain ⟨-, hle, -, rfl⟩ := Scheduler.allocTaskId_eq_some h'
    exact ⟨h.valid, h.body, h.count, h.coroutine, Nat.le_succ_of_le (Nat.le_trans h.next hle)⟩

end Registered

lemma registered_startTask {startNow : Bool} (h : m.sched.Registered) :
    (m.startTask id startNow).sched.Registered := by
  unfold Machine.startTask
  split_ifs
  · exact ⟨h.valid, h.body, h.count, h.coroutine, h.next⟩
  · exact h

lemma registered_installTask {name : String} {body : BodyID} (h : m.sched.Registered)
    (hv : isValidTaskId id = true) : (m.installTask id name body).sched.Registered := by
  have hc := h.clear id
  refine ⟨fun id' hid => ?_, fun id' hid => ?_, fun id' hid => ?_, fun id' => ?_, hc.next⟩
  all_goals
    simp only [Machine.installTask, Machine.coroCreate, ne_eq] at *
    by_cases heq : id' = id
  · exact heq ▸ hv
  · rw [Function.update_of_ne heq] at hid; exact h.valid id' hid
  · subst heq; simp
  · rw [Function.update_of_ne heq] at hid ⊢; exact h.body id' hid
  · subst heq; simp
  · rw [Function.update_of_ne heq] at hid ⊢; exact h.count id' hid
  · subst heq; simp
  · rw [Function.update_of_ne heq, Function.update_of_ne heq]
    rw [(keeps_clearUserRemoval ..).taskCoroutineMap]
    exact h.coroutine id'

lemma registered_step (h : m.sched.Registered) (hr : Rule m a m') (hf : m'.fault = none) :
    m'.sched.Registered := by
  cases hr with
  | fault hf' | removeFault _ hf' | resumeFault _ _ _ _ _ _ _ _ _ hf' => simp [hf] at hf'
  | skip id =>
    exact (h.drain.clear id).of_keeps (keeps_unregister _ id) fun id' hid =>
      isSome_update hid
  | resume id rest cnt =>
    have hs := h.drain
    exact ⟨hs.valid, hs.body, fun id' hid => isSome_update (hs.count id' hid), hs.coroutine, hs.next⟩
  | yieldedLoop id th oldCurr y | yieldedReturn id th oldCurr y =>
    have hs := h.settle m.mode oldCurr y id
    exact ⟨hs.valid, hs.body, hs.count, hs.coroutine, hs.next⟩
  | append user id name body startNow s hs hc =>
    exact registered_startTask
      (registered_installTask (m := { m with sched := s }) (hc.registered h) (hc.valid h))
  | restart _ id name body s hs hc hname =>
    have hs := hc.registered h
    refine ⟨hs.valid, hs.body, hs.count, fun id' => ?_, hs.next⟩
    simp only [Machine.call, Machine.coroCreate]
    by_cases heq : id' = id
    · subst heq; simp [hc.keeps.taskNameMapArchived, hname]
    · rw [Function.update_of_ne heq]; exact hs.coroutine id'
  | newEventHdl name user e s hs hc =>
    cases hc with
    | given => exact ⟨h.valid, h.body, h.count, h.coroutine, h.next⟩
    | fresh _ _ h' =>
      rw [(Scheduler.allocEventId_eq_some h').2.2.2]
      exact ⟨h.valid, h.body, h.count, h.coroutine, h.next⟩
  | remove id | removeWaiting id =>
    have hs := h.of_keeps (keeps_flagUserRemoval m.sched id) fun id' hid => by
      unfold Scheduler.flagUserRemoval
      split_ifs <;> exact hid
    exact ⟨hs.valid, hs.body, hs.count, hs.coroutine, hs.next⟩
  | _ => exact ⟨h.valid, h.body, h.count, h.coroutine, h.next⟩

lemma registered_of_reached (h : Machine.Reached mode ok m) :
    m.fault = none → m.sched.Registered := by
  refine Reach.invariant (I := fun m : Machine => m.fault = none → m.sched.Registered) h ?_ ?_
  · intro _
    constructor <;> simp [Machine.init, Scheduler.init]
  · intro m a m' _ ih _ hs hf
    obtain ⟨hm, hr⟩ := Rule.of_step hs
    exact registered_step (ih hm) hr hf

/-! ### Ids that nothing will schedule -/

/-- `schedule_task(id)` is in progress, or a wake-up loop will call it. -/
def Frame.holds (id : TaskID) : Frame → Bool
  | .call id' | .body id' _ _ | .resumed id' _ _ _ => id' = id
  | .wakeup _ (some (_, ws)) => ws.any fun w => w.taskId = id
  | .wakeup _ none | .pass .. => false

/-- A callback, a waiting list or a call below the current one will lead to `schedule_task(id)`,
or to code of `id`. -/
def Machine.awaited (m : Machine) (rest : List Frame) (id : TaskID) : Bool :=
  (m.callbacks.any fun cb => cb.taskId = id) ||
    decide (∃ e ∈ m.sched.eventTaskIdListMap.keys, ∃ w ∈ m.sched.waiting e, w.taskId = id) ||
    rest.any (Frame.holds id)

/-- Nothing but a pass over all tasks will call `schedule_task(id)`. -/
structure Idle (m : Machine) (id : TaskID) : Prop where
  callbacks : ∀ cb ∈ m.callbacks, cb.taskId ≠ id
  waiting : ∀ e, ∀ w ∈ m.sched.eventTables.waiting e, w.taskId ≠ id
  stack : ∀ f ∈ m.stack, f.holds id = false
  posedge : id ∉ m.sched.posedgeTasks
  negedge : id ∉ m.sched.negedgeTasks

lemma not_awaited {rest : List Frame} (h : m.awaited rest id = false) :
    (∀ cb ∈ m.callbacks, cb.taskId ≠ id) ∧
      (∀ e, ∀ w ∈ m.sched.eventTables.waiting e, w.taskId ≠ id) ∧
      ∀ f ∈ rest, f.holds id = false := by
  simp only [Machine.awaited, Bool.or_eq_false_iff, List.any_eq_false, decide_eq_true_eq,
    decide_eq_false_iff_not] at h
  obtain ⟨⟨hcb, hwait⟩, hrest⟩ := h
  refine ⟨hcb, fun e w hw heq => hwait ⟨e, ?_, w, hw, heq⟩, fun f hf => by simpa using hrest f hf⟩
  by_contra hkey
  rw [Finmap.mem_keys, ← Finmap.lookup_eq_none] at hkey
  unfold EventTables.waiting Scheduler.eventTables at hw
  simp [hkey] at hw

/-- What an idle id needs of a step: fewer callbacks, waiters and edge registrations of it, and no
new call. -/
lemma Idle.mono (h : Idle m id)
    (hcb : ∀ cb ∈ m'.callbacks, cb ∈ m.callbacks ∨ cb.taskId ≠ id)
    (hw : ∀ e, ∀ w ∈ m'.sched.eventTables.waiting e,
      (∃ e', w ∈ m.sched.eventTables.waiting e') ∨ w.taskId ≠ id)
    (hs : ∀ f ∈ m'.stack, f ∈ m.stack ∨ f.holds id = false)
    (hp : ∀ i ∈ m'.sched.posedgeTasks, i ∈ m.sched.posedgeTasks ∨ i ≠ id)
    (hn : ∀ i ∈ m'.sched.negedgeTasks, i ∈ m.sched.negedgeTasks ∨ i ≠ id) : Idle m' id where
  callbacks cb hmem := (hcb cb hmem).elim (h.callbacks cb) fun hne => hne
  waiting e w hmem := (hw e w hmem).elim (fun ⟨e', hw⟩ => h.waiting e' w hw) fun hne => hne
  stack f hmem := (hs f hmem).elim (h.stack f) fun hne => hne
  posedge hmem := (hp id hmem).elim h.posedge fun hne => hne rfl
  negedge hmem := (hn id hmem).elim h.negedge fun hne => hne rfl

lemma Idle.of_stack (h : Idle m id) (hcb : m'.callbacks = m.callbacks)
    (ht : m'.sched.eventTables.waiting = m.sched.eventTables.waiting)
    (hp : m'.sched.posedgeTasks = m.sched.posedgeTasks)
    (hn : m'.sched.negedgeTasks = m.sched.negedgeTasks)
    (hs : ∀ f ∈ m'.stack, f ∈ m.stack ∨ f.holds id = false) : Idle m' id :=
  h.mono (fun _ hmem => .inl (hcb ▸ hmem)) (fun e _ hmem => .inl ⟨e, ht ▸ hmem⟩) hs
    (fun _ hmem => .inl (hp ▸ hmem)) fun _ hmem => .inl (hn ▸ hmem)

lemma Idle.keeps {s : Scheduler} {rest : List Frame} {log : List Ev} (h : Idle m id)
    (hk : Keeps m.sched s) (hs : ∀ f ∈ rest, f ∈ m.stack ∨ f.holds id = false) :
    Idle { m with sched := s, stack := rest, log := log } id :=
  h.of_stack rfl (congrArg EventTables.waiting hk.eventTables) hk.posedgeTasks hk.negedgeTasks hs

lemma mem_waiting_insert {t : EventTables} {e e' : EventID} {l : List Waiter} {w : Waiter}
    (h : w ∈ EventTables.waiting { t with
      eventTaskIdListMap := t.eventTaskIdListMap.insert e l } e') :
    w ∈ l ∨ w ∈ t.waiting e' := by
  rw [waiting_insert] at h
  exact (EventBus.mem_update_cases h).imp (fun h => h.2) fun h => h.2

lemma mem_waiting_append {s : Scheduler} {e e' : EventID} {l : List Waiter} {w w' : Waiter}
    (hl : s.eventTaskIdListMap.lookup e = some l)
    (h : w ∈ EventTables.waiting { s.eventTables with
      eventTaskIdListMap := s.eventTaskIdListMap.insert e (l ++ [w']) } e') :
    (∃ e, w ∈ s.eventTables.waiting e) ∨ w = w' := by
  rcases mem_waiting_insert (t := s.eventTables) h with hw | hw
  · rcases List.mem_append.mp hw with hw | hw
    · exact .inl ⟨e, (waiting_of_eq_some hl).symm ▸ hw⟩
    · exact .inr (List.mem_singleton.mp hw)
  · exact .inl ⟨e', hw⟩

lemma mem_settle_edges (s : Scheduler) (mode : Mode) (id oldCurr : TaskID) (y : Yielded) :
    (∀ i ∈ (s.settle mode id oldCurr y).posedgeTasks, i ∈ s.posedgeTasks) ∧
      ∀ i ∈ (s.settle mode id oldCurr y).negedgeTasks, i ∈ s.negedgeTasks := by
  unfold Scheduler.settle Scheduler.removeTask'
  dsimp only
  split_ifs
  · exact ⟨fun i hi => Finset.mem_of_mem_erase hi, fun i hi => hi⟩
  · exact ⟨fun i hi => hi, fun i hi => Finset.mem_of_mem_erase hi⟩
  · exact ⟨fun i hi => hi, fun i hi => hi⟩
  · exact ⟨fun i hi => hi, fun i hi => hi⟩
  · exact ⟨fun i hi => hi, fun i hi => hi⟩

lemma Chosen.edges {s s' : Scheduler} {user : Option TaskID} (h : Chosen s user id s') :
    s'.posedgeTasks = s.posedgeTasks ∧ s'.negedgeTasks = s.negedgeTasks := by
  cases h with
  | given => exact ⟨rfl, rfl⟩
  | fresh _ _ h => rw [(Scheduler.allocTaskId_eq_some h).2.2.2]; exact ⟨rfl, rfl⟩

lemma ChosenEvent.edges {s s' : Scheduler} {user : Option EventID} {e : EventID}
    (h : ChosenEvent s user e s') :
    s'.posedgeTasks = s.posedgeTasks ∧ s'.negedgeTasks = s.negedgeTasks := by
  cases h with
  | given => exact ⟨rfl, rfl⟩
  | fresh _ _ h => rw [(Scheduler.allocEventId_eq_some h).2.2.2]; exact ⟨rfl, rfl⟩

/-- A task that is idle stays idle until a pass over all tasks calls it or a coroutine is installed
for it. -/
lemma Idle.step (h : Idle m id) (hcur : m.sched.currTaskId = current m.stack) (hr : Rule m a m')
    (hf : m'.fault = none)
    (hpick : a = .pick id → id ∈ m.sched.taskNameMapRunning →
      (∃ start visited rest, m.stack = .pass .all start visited none :: rest) →
      (m.mode = .normal → m.sched.taskFiredStatusMap id = false) → False)
    (hcreate : ∀ th, m'.log ≠ .create id th :: m.log) : Idle m' id := by
  have hmem : ∀ {f : Frame} {rest : List Frame}, m.stack = f :: rest → f.holds id = false :=
    fun hs => h.stack _ (hs ▸ List.mem_cons_self)
  have htail : ∀ {f : Frame} {rest : List Frame}, m.stack = f :: rest → ∀ g ∈ rest, g ∈ m.stack :=
    fun hs g hg => hs ▸ List.mem_cons_of_mem _ hg
  -- the task that registers is not `id`, whose bodies do not run
  have hself : ∀ {id₀ : TaskID} {th : ThreadID} {oldCurr : TaskID} {rest : List Frame},
      m.stack = .body id₀ th oldCurr :: rest → m.sched.currTaskId ≠ id := by
    intro id₀ th oldCurr rest hs
    have hne : id₀ ≠ id := by simpa [Frame.holds] using hmem hs
    rw [hcur, hs]
    exact hne
  cases hr with
  | fault hf' | removeFault _ hf' | resumeFault _ _ _ _ _ _ _ _ _ hf' => simp [hf] at hf'
  | skip id₀ rest hs => exact h.keeps (keeps_skip ..) fun f hmem => .inl (htail hs f hmem)
  | resume id₀ rest cnt th t hs =>
    have hk := keeps_drainPendingRemoval m.sched
    refine h.of_stack rfl (congrArg EventTables.waiting hk.eventTables) hk.posedgeTasks
      hk.negedgeTasks fun f hf => ?_
    rcases List.mem_cons.mp hf with rfl | hf
    · exact .inr (by simpa [Frame.holds] using hmem hs)
    · exact .inl (htail hs f hf)
  | yieldedLoop id₀ th oldCurr y rest hs | yieldedReturn id₀ th oldCurr y rest hs =>
    obtain ⟨hp, hn⟩ := mem_settle_edges m.sched m.mode id₀ oldCurr y
    have ht := congrArg EventTables.waiting (settle_eventTables m.sched m.mode id₀ oldCurr y)
    refine h.mono (fun _ hmem => .inl hmem) (fun e w hw => .inl ⟨e, ht ▸ hw⟩) (fun f hf => ?_)
      (fun i hi => .inl (hp i hi)) fun i hi => .inl (hn i hi)
    first
    | exact .inl (htail hs f hf)
    | exact (List.mem_cons.mp hf).elim (fun heq => .inr (heq ▸ rfl)) fun hf => .inl (htail hs f hf)
  | loopWake next e w ws rest hs =>
    have hw := hmem hs
    simp only [Frame.holds, List.any_cons, Bool.or_eq_false_iff] at hw
    refine h.of_stack rfl rfl rfl rfl fun f hf => ?_
    rcases List.mem_cons.mp hf with rfl | hf
    · exact .inr (by simpa [Frame.holds] using hw.1)
    · rcases List.mem_cons.mp hf with rfl | hf
      · exact .inr hw.2
      · exact .inl (htail hs f hf)
  | loopNext next e rest hs =>
    refine h.of_stack rfl rfl rfl rfl fun f hf => ?_
    rcases List.mem_cons.mp hf with rfl | hf
    · exact .inr rfl
    · exact .inl (htail hs f hf)
  | loopTake next e l rest hs he hl =>
    refine h.mono (fun _ hmem => .inl hmem) (fun e' w hw => ?_) (fun f hf => ?_)
      (fun _ hi => .inl hi) fun _ hi => .inl hi
    · exact (mem_waiting_insert hw).elim (fun hw => by cases hw) fun hw => .inl ⟨e', hw⟩
    · rcases List.mem_cons.mp hf with rfl | hf
      · refine .inr (List.any_eq_false.mpr fun w hw => ?_)
        simpa using h.waiting e w (waiting_of_eq_some hl ▸ hw)
      · exact .inl (htail hs f hf)
  | loopClose next rest hs => exact h.of_stack rfl rfl rfl rfl fun f hf => .inl (htail hs f hf)
  | startPass kind hs =>
    refine h.of_stack rfl rfl rfl rfl fun f hf => .inr ?_
    rw [List.mem_singleton.mp hf]
    rfl
  | pickFired id₀ kind start visited rest hs | passReturn id₀ kind start visited rest hs =>
    refine h.of_stack rfl rfl rfl rfl fun f hf => ?_
    rcases List.mem_cons.mp hf with rfl | hf
    · exact .inr rfl
    · exact .inl (htail hs f hf)
  | pick id₀ kind start visited ret rest hs hk hv hret hfired =>
    have hne : id₀ ≠ id := by
      rintro rfl
      cases kind with
      | all =>
        exact hpick rfl (Finmap.mem_keys.mp hk) ⟨start, visited, rest, hs⟩ (hfired rfl)
      | posedge => exact h.posedge hk
      | negedge => exact h.negedge hk
    refine h.of_stack rfl rfl rfl rfl fun f hf => ?_
    rcases List.mem_cons.mp hf with rfl | hf
    · exact .inr (by simpa [Frame.holds] using hne)
    · rcases List.mem_cons.mp hf with rfl | hf
      · exact .inr rfl
      · exact .inl (htail hs f hf)
  | endPass kind start visited rest hs =>
    exact h.of_stack rfl rfl rfl rfl fun f hf => .inl (htail hs f hf)
  | fire n cb hs hcb =>
    have hcb' : cb ∈ m.callbacks := List.mem_of_getElem? hcb
    refine h.mono (fun cb' hmem' => .inl ?_) (fun e _ hw => .inl ⟨e, hw⟩) (fun f hf => ?_)
      (fun _ hi => .inl hi) fun _ hi => .inl hi
    · dsimp only at hmem'
      split_ifs at hmem'
      · exact hmem'
      · exact List.eraseIdx_subset hmem'
    · rcases List.mem_cons.mp hf with rfl | hf
      · exact .inr (by simpa [Frame.holds] using h.callbacks cb hcb')
      · exact .inl hf
  | newEventHdl name user e s hs hc =>
    have hw : (s.installEvent name e).eventTables.waiting = Function.update m.bus.waiting e [] :=
      congrArg EventBus.Bus.waiting (hc.installEvent_bus name)
    refine h.mono (fun _ hmem => .inl hmem) (fun e' w hw' => .inl ⟨e', ?_⟩) (fun _ hf => .inl hf)
      (fun i hi => .inl (hc.edges.1 ▸ hi)) fun i hi => .inl (hc.edges.2 ▸ hi)
    dsimp only at hw'
    rw [hw] at hw'
    exact (EventBus.mem_update_cases hw').elim (fun h => by cases h.2) fun h => h.2
  | removeEvent | send => exact h.of_stack rfl rfl rfl rfl fun _ hf => .inl hf
  | append user id₀ name body startNow s hs hc =>
    have hne : id₀ ≠ id := by
      rintro rfl
      exact hcreate m.nextThread startTask_log
    have hk := keeps_clearUserRemoval s id₀
    have ht : (s.clearUserRemoval id₀).eventTables.waiting = m.sched.eventTables.waiting :=
      congrArg EventTables.waiting (hk.eventTables.trans hc.eventTables)
    have hinst : Idle (Machine.installTask { m with sched := s } id₀ name body) id :=
      h.of_stack rfl ht (hk.posedgeTasks.trans hc.edges.1) (hk.negedgeTasks.trans hc.edges.2)
        fun _ hf => .inl hf
    unfold Machine.startTask
    split_ifs
    · refine hinst.of_stack rfl rfl rfl rfl fun f hf => ?_
      rcases List.mem_cons.mp hf with rfl | hf
      · exact .inr (by simpa [Frame.holds] using hne)
      · exact .inl hf
    · exact hinst
  | restart _ id₀ name body s hs hc =>
    have hne : id₀ ≠ id := by
      rintro rfl
      exact hcreate m.nextThread rfl
    refine h.of_stack rfl (congrArg EventTables.waiting hc.keeps.eventTables)
      hc.keeps.posedgeTasks hc.keeps.negedgeTasks fun f hf => ?_
    rcases List.mem_cons.mp hf with rfl | hf
    · exact .inr (by simpa [Frame.holds] using hne)
    · exact .inl hf
  | tryRunning => exact h
  | remove id₀ => exact h.keeps (keeps_flagUserRemoval m.sched id₀) fun _ hf => .inl hf
  | removeWaiting id₀ e l i w hs he hl hi =>
    have hk := keeps_flagUserRemoval m.sched id₀
    have hl' : m.sched.eventTables.waiting e = l := waiting_of_eq_some hl
    refine h.mono (fun _ hmem => .inl hmem) (fun e' w' hw' => .inl ?_) (fun _ hf => .inl hf)
      (fun i hi => .inl (hk.posedgeTasks ▸ hi)) fun i hi => .inl (hk.negedgeTasks ▸ hi)
    rcases mem_waiting_insert (t := (m.sched.flagUserRemoval id₀).eventTables)
      (e := e) (l := l.eraseIdx i) (by rw [hk.eventTables]; exact hw') with hw | hw
    · exact ⟨e, hl' ▸ List.eraseIdx_subset hw⟩
    · exact ⟨e', by rwa [hk.eventTables] at hw⟩
  | wait e l id₀ th oldCurr rest hs hl =>
    refine h.mono (fun _ hmem => .inl hmem) (fun e' w' hw' => ?_) (fun f hf => ?_)
      (fun _ hi => .inl hi) fun _ hi => .inl hi
    · rcases mem_waiting_append hl hw' with hw | rfl
      · exact .inl hw
      · exact .inr (hself hs)
    · rcases List.mem_cons.mp hf with rfl | hf
      · exact .inr (by simpa [Frame.holds] using hmem hs)
      · exact .inl (htail hs f hf)
  | insertWaiter e l id₀ th oldCurr rest hs hl =>
    refine h.mono (fun _ hmem => .inl hmem) (fun e' w' hw' => ?_) (fun _ hf => .inl hf)
      (fun _ hi => .inl hi) fun _ hi => .inl hi
    rcases mem_waiting_append hl hw' with hw | rfl
    · exact .inl hw
    · exact .inr (hself hs)
  | awaitCallback always id₀ th oldCurr rest hs =>
    refine h.mono (fun cb hcb => ?_) (fun e _ hw => .inl ⟨e, hw⟩) (fun f hf => ?_)
      (fun _ hi => .inl hi) fun _ hi => .inl hi
    · rcases List.mem_append.mp hcb with hcb | hcb
      · exact .inl hcb
      · rw [List.mem_singleton.mp hcb]
        exact .inr (hself hs)
    · rcases List.mem_cons.mp hf with rfl | hf
      · exact .inr (by simpa [Frame.holds] using hmem hs)
      · exact .inl (htail hs f hf)
  | awaitPosedge id₀ th oldCurr rest hs =>
    refine h.mono (fun _ hmem => .inl hmem) (fun e _ hw => .inl ⟨e, hw⟩) (fun _ hf => .inl hf)
      (fun i hi => ?_) fun _ hi => .inl hi
    rcases Finset.mem_insert.mp hi with rfl | hi
    · exact .inr (hself hs)
    · exact .inl hi
  | awaitNegedge id₀ th oldCurr rest hs =>
    refine h.mono (fun _ hmem => .inl hmem) (fun e _ hw => .inl ⟨e, hw⟩) (fun _ hf => .inl hf)
      (fun _ hi => .inl hi) fun i hi => ?_
    rcases Finset.mem_insert.mp hi with rfl | hi
    · exact .inr (hself hs)
    · exact .inl hi
  | yield y id₀ th oldCurr rest hs =>
    refine h.of_stack rfl rfl rfl rfl fun f hf => ?_
    rcases List.mem_cons.mp hf with rfl | hf
    · exact .inr (by simpa [Frame.holds] using hmem hs)
    · exact .inl (htail hs f hf)

end Verilua
