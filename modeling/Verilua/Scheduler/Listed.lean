import Verilua.Scheduler.EventWaits

/-!
# Waiting lists and the waits that fill them

A task stands on one waiting list at most, that of the event recorded for it, and its coroutine is
suspended in the wait that put it there. A step keeps this exactly if it neither resumes nor starts
again a task that stands on a list, and if only the installed coroutine of a task waits. The wake-up
loop does otherwise: a task that is taken off its list, removed and started again inside the loop
may wait anew before the loop comes to its old entry.
-/

namespace Verilua

open TransitionSystem

variable {o o' : Observed} {m m' : Machine} {a : Act} {as : List Act} {mode : Mode} {id : TaskID}
  {th : ThreadID} {e : EventID} {w : Waiter} {ρ : Ask}

/-- What the waiting lists are to be in every state. -/
structure Observed.ListsConsistent (o : Observed) : Prop where
  once : ∀ (e e' : EventID) (i j : Nat) (w w' : Waiter), (o.machine.sched.waiting e)[i]? = some w →
    (o.machine.sched.waiting e')[j]? = some w' → w.taskId = w'.taskId → e = e' ∧ i = j
  recorded : ∀ e, ∀ w ∈ o.machine.sched.waiting e,
    o.machine.sched.taskIdToEventIdMap w.taskId = some e
  suspended : ∀ e, ∀ w ∈ o.machine.sched.waiting e, ∃ th t,
    o.machine.sched.taskCoroutineMap w.taskId = some th ∧ o.machine.threads th = some t ∧
      t.status = .suspended ∧ o.asked th = some (.event e w)

/-- The task stands on a waiting list. -/
def Machine.listed (m : Machine) (id : TaskID) : Bool :=
  decide (∃ e ∈ m.sched.eventTaskIdListMap.keys, ∃ w ∈ m.sched.waiting e, w.taskId = id)

/-- No task that stands on a list is resumed or started again, only the installed coroutine of a
task waits, and none puts its task on a list without a wait. -/
def Machine.keepsLists (m : Machine) : Act → Bool
  | .enter =>
    match m.stack with
    | .call id :: _ => decide (0 < m.sched.nrUserRemovalTasks ∧ id ∈ m.sched.userRemovalTasksSet) ||
        !m.listed id
    | _ => true
  | .appendTask (some id) _ _ _ | .wakeupTask id => !m.listed id
  | .tryWakeupTask id =>
    decide (id ∈ m.sched.taskNameMapRunning ∧ id ∉ m.sched.userRemovalTasksSet) || !m.listed id
  | .wait _ =>
    match m.stack with
    | .body id th _ :: _ => decide (m.sched.taskCoroutineMap id = some th)
    | _ => true
  | .insertWaiter _ => false
  | _ => true

lemma listed_eq_true : m.listed id = true ↔ ∃ e, ∃ w ∈ m.sched.waiting e, w.taskId = id := by
  rw [Machine.listed, decide_eq_true_eq]
  constructor
  · rintro ⟨e, -, w, hw, hid⟩
    exact ⟨e, w, hw, hid⟩
  · rintro ⟨e, w, hw, hid⟩
    refine ⟨e, ?_, w, hw, hid⟩
    by_contra hkey
    rw [Finmap.mem_keys, ← Finmap.lookup_eq_none] at hkey
    rw [Scheduler.waiting, hkey] at hw
    cases hw

lemma listed_eq_false : m.listed id = false ↔ ∀ e, ∀ w ∈ m.sched.waiting e, w.taskId ≠ id := by
  rw [← Bool.not_eq_true, listed_eq_true]
  push Not
  rfl

/-! ### What a step does to the lists -/

lemma Rule.mem_waiting (hr : Rule m a m') (hd : FlagDown m) (hf : m'.fault = none)
    (hw : w ∈ m'.sched.waiting e) : w ∈ m.sched.waiting e ∨
      (a = .wait e ∨ a = .insertWaiter e) ∧ w = ⟨m.sched.currTaskId, m.nextWaitNo⟩ := by
  rcases hr.refines hd hf with hsame | ⟨b, hb, hstep⟩
  · have hlist : m'.sched.waiting e = m.sched.waiting e :=
      congrFun (congrArg EventBus.Bus.waiting hsame) e
    exact .inl (hlist ▸ hw)
  · by_cases hb' : b = .register e w
    · subst hb'
      refine .inr ?_
      cases hb with
      | wait => exact ⟨.inl rfl, rfl⟩
      | insertWaiter => exact ⟨.inr rfl, rfl⟩
    · exact .inl ((EventBus.Rule.of_step hstep).mem_waiting hb' hw)

lemma Rule.waits (hr : Rule m a m') (hf : m'.fault = none)
    (ha : a = .wait e ∨ a = .insertWaiter e) :
    ⟨m.sched.currTaskId, m.nextWaitNo⟩ ∈ m'.sched.waiting e := by
  cases hr with
  | fault hf' | removeFault _ hf' | resumeFault _ _ _ _ _ _ _ _ _ hf' => simp [hf] at hf'
  | wait e' l id th oldCurr rest hs hl =>
    rcases ha with ha | ha
    · cases ha
      simp [Scheduler.waiting]
    · cases ha
  | insertWaiter e' l id th oldCurr rest hs hl =>
    rcases ha with ha | ha
    · cases ha
    · cases ha
      simp [Scheduler.waiting]
  | restart _ _ _ _ _ _ hcl =>
    rcases ha with rfl | rfl
    · cases hcl
    · cases hcl
  | _ =>
    rcases ha with ha | ha
    · cases ha
    · cases ha

lemma settle_taskIdToEventIdMap (s : Scheduler) (id oldCurr : TaskID) (y : Yielded) :
    (s.settle mode id oldCurr y).taskIdToEventIdMap = s.taskIdToEventIdMap :=
  congrArg EventTables.taskIdToEventIdMap (settle_eventTables s mode id oldCurr y)

lemma Keeps.taskIdToEventIdMap {s s' : Scheduler} (h : Keeps s s') :
    s'.taskIdToEventIdMap = s.taskIdToEventIdMap :=
  congrArg EventTables.taskIdToEventIdMap h.eventTables

lemma Rule.eventIdMap (hr : Rule m a m') (hf : m'.fault = none) :
    m'.sched.taskIdToEventIdMap = m.sched.taskIdToEventIdMap ∨ ∃ e, a = .wait e ∧
      m'.sched.taskIdToEventIdMap =
        Function.update m.sched.taskIdToEventIdMap m.sched.currTaskId (some e) := by
  cases hr with
  | fault hf' | removeFault _ hf' | resumeFault _ _ _ _ _ _ _ _ _ hf' => simp [hf] at hf'
  | skip id => exact .inl (keeps_skip m.sched id).taskIdToEventIdMap
  | resume => exact .inl (keeps_drainPendingRemoval m.sched).taskIdToEventIdMap
  | yieldedLoop | yieldedReturn => exact .inl (settle_taskIdToEventIdMap ..)
  | append user id name body startNow s hs hc =>
    refine .inl ?_
    have hs' : s.taskIdToEventIdMap = m.sched.taskIdToEventIdMap :=
      congrArg EventTables.taskIdToEventIdMap hc.eventTables
    unfold Machine.startTask
    split_ifs <;> exact (keeps_clearUserRemoval s id).taskIdToEventIdMap.trans hs'
  | restart _ id name body s hs hc => exact .inl hc.keeps.taskIdToEventIdMap
  | newEventHdl name user e s hs hc =>
    refine .inl ?_
    cases hc with
    | given => rfl
    | fresh _ _ h => rw [(Scheduler.allocEventId_eq_some h).2.2.2]; rfl
  | remove id | removeWaiting id => exact .inl (keeps_flagUserRemoval m.sched id).taskIdToEventIdMap
  | wait e => exact .inr ⟨e, rfl, rfl⟩
  | _ => exact .inl rfl

/-! ### What has been asked for -/

/-- A coroutine that has asked for something is suspended, and the numbers of the waits that were
asked for are used up. -/
structure AskedWell (o : Observed) : Prop where
  suspended : ∀ th ρ, o.asked th = some ρ →
    ∃ t, o.machine.threads th = some t ∧ t.status = .suspended
  fresh : ∀ th e w, o.asked th = some (.event e w) → w.waitNo < o.machine.nextWaitNo

/-- The body of `th` asks for `ρ`. -/
def Observed.Asks (o : Observed) (a : Act) (th : ThreadID) (ρ : Ask) : Prop :=
  (∃ id oldCurr rest, o.machine.stack = .body id th oldCurr :: rest) ∧
    ((∃ always, a = .awaitCallback always ∧ ρ = .callback o.nextNo) ∨
      ∃ e, a = .wait e ∧ ρ = .event e ⟨o.machine.sched.currTaskId, o.machine.nextWaitNo⟩)

lemma Bodies.yielded (h : Bodies m) {oldCurr : TaskID} {rest : List Frame}
    (hs : m.stack = .body id th oldCurr :: rest) :
    ∃ t, (m.coroYield id th oldCurr rest .noop).threads th = some t ∧ t.status = .suspended := by
  obtain ⟨t, ht, -⟩ := h.active th (by simp [Machine.bodies, hs, Frame.bodyThread?])
  simp [Machine.coroYield, ht, Yielded.status]

lemma ask_of_body {oldCurr : TaskID} {rest : List Frame}
    (hs : o.machine.stack = .body id th oldCurr :: rest) :
    o.ask ρ = Function.update o.asked th (some ρ) := by
  simp [Observed.ask, Machine.bodyThread?, hs, Frame.bodyThread?]

/-- What a coroutine has asked for after a step, it had asked for before, or it has just suspended
itself. -/
lemma Rule.asked (hr : Rule o.machine a m') (hsound : o.Sound) (hrec : Recorded o)
    (hf : m'.fault = none) (h : (o.note a m').asked th = some ρ) :
    o.asked th = some ρ ∧ m'.threads th = o.machine.threads th ∨
      o.Asks a th ρ ∧ ∃ t, m'.threads th = some t ∧ t.status = .suspended := by
  cases hr with
  | fault hf' | removeFault _ hf' | resumeFault _ _ _ _ _ _ _ _ _ hf' => simp [hf] at hf'
  | resume id rest cnt th₀ t hs =>
    have hasked : Function.update o.asked th₀ none th = some ρ := h
    by_cases heq : th = th₀
    · rw [heq, Function.update_self] at hasked
      cases hasked
    · rw [Function.update_of_ne heq] at hasked
      exact .inl ⟨hasked, Function.update_of_ne heq _ _⟩
  | append user id name body startNow s =>
    have hasked : o.asked th = some ρ := h
    have hne : th ≠ o.machine.nextThread :=
      Nat.ne_of_lt (hsound.coroutines.bound th (hrec.known th (by simp [hasked])))
    refine .inl ⟨hasked, ?_⟩
    rw [startTask_threads.1]
    exact Function.update_of_ne hne _ _
  | restart _ id name body s hs hcl =>
    have hasked : o.asked th = some ρ := by cases hcl <;> exact h
    have hne : th ≠ o.machine.nextThread :=
      Nat.ne_of_lt (hsound.coroutines.bound th (hrec.known th (by simp [hasked])))
    exact .inl ⟨hasked, Function.update_of_ne hne _ _⟩
  | wait e l id th₀ oldCurr rest hs =>
    have hasked : o.ask (.event e ⟨o.machine.sched.currTaskId, o.machine.nextWaitNo⟩) th =
      some ρ := h
    rw [ask_of_body hs] at hasked
    by_cases heq : th = th₀
    · subst heq
      rw [Function.update_self] at hasked
      cases hasked
      exact .inr ⟨⟨⟨id, oldCurr, rest, hs⟩, .inr ⟨e, rfl, rfl⟩⟩, hsound.bodies.yielded hs⟩
    · rw [Function.update_of_ne heq] at hasked
      exact .inl ⟨hasked, Function.update_of_ne heq _ _⟩
  | awaitCallback always id th₀ oldCurr rest hs =>
    have hasked : o.ask (.callback o.nextNo) th = some ρ := h
    rw [ask_of_body hs] at hasked
    by_cases heq : th = th₀
    · subst heq
      rw [Function.update_self] at hasked
      cases hasked
      exact .inr ⟨⟨⟨id, oldCurr, rest, hs⟩, .inl ⟨always, rfl, rfl⟩⟩, hsound.bodies.yielded hs⟩
    · rw [Function.update_of_ne heq] at hasked
      exact .inl ⟨hasked, Function.update_of_ne heq _ _⟩
  | yield y id th₀ oldCurr rest hs =>
    have hasked : o.asked th = some ρ := h
    have hne : th ≠ th₀ := by
      rintro rfl
      rw [hrec.asked_of_body hs] at hasked
      cases hasked
    exact .inl ⟨hasked, Function.update_of_ne hne _ _⟩
  | _ => exact .inl ⟨h, rfl⟩

lemma AskedWell.step (h : AskedWell o) (hr : Rule o.machine a m') (hsound : o.Sound)
    (hrec : Recorded o) (hf : m'.fault = none) : AskedWell (o.note a m') := by
  have hm := note_machine o a m'
  refine ⟨fun th ρ hρ => ?_, fun th e w hw => ?_⟩
  · rw [hm]
    rcases hr.asked hsound hrec hf hρ with ⟨hold, ht⟩ | ⟨-, hnew⟩
    · rw [ht]
      exact h.suspended th ρ hold
    · exact hnew
  · rw [hm]
    rcases hr.asked hsound hrec hf hw with ⟨hold, -⟩ | ⟨⟨-, hask⟩, -⟩
    · exact lt_of_lt_of_le (h.fresh th e w hold) (hr.nextWaitNo_le hf)
    · rcases hask with ⟨always, rfl, hρ⟩ | ⟨e', rfl, hρ⟩
      · cases hρ
      · cases hρ
        cases hr with
        | fault hf' => simp [hf] at hf'
        | restart _ _ _ _ _ _ hcl => cases hcl
        | wait => exact Nat.lt_succ_self _

lemma askedWell_of_reached {ok : Observed → Act → Prop} (h : Observed.Reached mode ok o) :
    o.machine.fault = none → AskedWell o := by
  refine Reach.invariant (I := fun o : Observed => o.machine.fault = none → AskedWell o) h
    (fun _ => ⟨fun _ _ hρ => (nomatch hρ), fun _ _ _ hw => (nomatch hw)⟩) ?_
  intro o a o' hreach ih _ hs hf
  obtain ⟨hstep, heq⟩ := Observed.machine_of_step hs
  obtain ⟨hm, hr⟩ := Rule.of_step hstep
  rw [heq, Observed.observe, if_neg (by simp [hf])]
  exact (ih hm).step hr (sound_of_reached hreach hm) (recorded_of_reached hreach hm) hf

/-! ### Steps that keep the lists consistent -/

lemma listsConsistent_of (honce : EventBus.Once o.machine.bus)
    (hrecorded : ∀ e, ∀ w ∈ o.machine.sched.waiting e,
      o.machine.sched.taskIdToEventIdMap w.taskId = some e)
    (hsuspended : ∀ e, ∀ w ∈ o.machine.sched.waiting e, ∃ th t,
      o.machine.sched.taskCoroutineMap w.taskId = some th ∧ o.machine.threads th = some t ∧
        t.status = .suspended ∧ o.asked th = some (.event e w)) : o.ListsConsistent := by
  refine ⟨fun e e' i j w w' hi hj hid => ?_, hrecorded, hsuspended⟩
  have hw := List.mem_of_getElem? hi
  have hw' := List.mem_of_getElem? hj
  have he : e = e' := by
    have hsame := hrecorded e w hw
    rw [hid, hrecorded e' w' hw'] at hsame
    exact (Option.some.inj hsame).symm
  subst he
  obtain ⟨th, t, hc, -, -, hask⟩ := hsuspended e w hw
  obtain ⟨th', t', hc', -, -, hask'⟩ := hsuspended e w' hw'
  rw [hid, hc'] at hc
  cases hc
  rw [hask'] at hask
  cases hask
  -- the one coroutine of the task waits once, and no registration stands on a list twice
  have hnodup : (o.machine.sched.waiting e).Nodup := (honce.nodup e).of_append_left
  obtain ⟨hlt, hgi⟩ := List.getElem?_eq_some_iff.mp hi
  obtain ⟨hlt', hgj⟩ := List.getElem?_eq_some_iff.mp hj
  exact ⟨rfl, (hnodup.getElem_inj_iff).mp (hgi.trans hgj.symm)⟩

section Step

variable (h : o.ListsConsistent) (hsound : o.Sound) (hrec : Recorded o) (hwell : AskedWell o)
  (hreg : o.machine.sched.Registered) (hr : Rule o.machine a m') (hf : m'.fault = none)

include h hreg hr hf in
lemma not_listed_of_installs (hok : o.machine.keepsLists a = true)
    (hi : Installs o.machine m' id) : o.machine.listed id = false := by
  rcases hr.installs hf hi with
    ⟨user, name, body, startNow, s, hch, rfl, -⟩ | ⟨name, body, s, hcl, -⟩
  · cases hch with
    | given => simpa [Machine.keepsLists] using hok
    | fresh _ _ halloc =>
      rw [← Bool.not_eq_true]
      intro hlisted
      obtain ⟨e, w, hw, rfl⟩ := listed_eq_true.mp hlisted
      obtain ⟨th, t, hc, -⟩ := h.suspended e w hw
      refine (hreg.coroutine w.taskId).mpr (by rw [hc]; rfl) ?_
      exact (Scheduler.allocTaskId_eq_some halloc).1
  · cases hcl with
    | tried hrun =>
      simp only [Machine.keepsLists, Bool.or_eq_true, decide_eq_true_eq, Bool.not_eq_true'] at hok
      exact hok.resolve_left fun hp => hp.2 (hrun hp.1)
    | notRunning | flagged | pending => simpa [Machine.keepsLists] using hok

include h hrec in
lemma not_listed_of_body {oldCurr : TaskID} {rest : List Frame}
    (hs : o.machine.stack = .body id th oldCurr :: rest)
    (hc : o.machine.sched.taskCoroutineMap id = some th) : o.machine.listed id = false := by
  rw [← Bool.not_eq_true]
  intro hlisted
  obtain ⟨e, w, hw, rfl⟩ := listed_eq_true.mp hlisted
  obtain ⟨th', t, hc', -, -, hask⟩ := h.suspended e w hw
  cases hc.symm.trans hc'
  rw [hrec.asked_of_body hs] at hask
  cases hask

lemma Rule.body_of_wait (hr : Rule m (.wait e) m') (hf : m'.fault = none) :
    ∃ id th oldCurr rest, m.stack = .body id th oldCurr :: rest ∧
      m'.sched.taskIdToEventIdMap =
        Function.update m.sched.taskIdToEventIdMap m.sched.currTaskId (some e) := by
  cases hr with
  | fault hf' => simp [hf] at hf'
  | restart _ _ _ _ _ _ hcl => cases hcl
  | wait _ l id th oldCurr rest hs => exact ⟨id, th, oldCurr, rest, hs, rfl⟩

include h hsound hrec hr hf in
lemma Observed.ListsConsistent.recorded_step (hok : o.machine.keepsLists a = true)
    (hw : w ∈ m'.sched.waiting e) : m'.sched.taskIdToEventIdMap w.taskId = some e := by
  rcases hr.mem_waiting hsound.flagDown hf hw with hold | ⟨rfl | rfl, rfl⟩
  · have hmap := h.recorded e w hold
    rcases hr.eventIdMap hf with hsame | ⟨e', rfl, hupd⟩
    · rw [hsame, hmap]
    · obtain ⟨id, th, oldCurr, rest, hs, -⟩ := hr.body_of_wait hf
      simp only [Machine.keepsLists, hs, decide_eq_true_eq] at hok
      have hcurr : o.machine.sched.currTaskId = id := by rw [hsound.currentTask.curr, hs]; rfl
      have hfree := not_listed_of_body h hrec hs hok
      rw [hupd, hcurr, Function.update_of_ne (listed_eq_false.mp hfree e w hold), hmap]
  · obtain ⟨-, -, -, -, -, hupd⟩ := hr.body_of_wait hf
    rw [hupd, Function.update_self]
  · cases hok

include h hsound hrec hreg hr hf in
lemma Observed.ListsConsistent.asked_step (hok : o.machine.keepsLists a = true)
    (hw : w ∈ m'.sched.waiting e) : ∃ th, m'.sched.taskCoroutineMap w.taskId = some th ∧
      (o.note a m').asked th = some (.event e w) := by
  have hm := note_machine o a m'
  have hmove := hr.move hsound.flagDown hsound.currentTask hf
  rcases hr.mem_waiting hsound.flagDown hf hw with hold | ⟨rfl | rfl, rfl⟩
  · obtain ⟨th, t, hc, ht, hsus, hask⟩ := h.suspended e w hold
    have hlisted : o.machine.listed w.taskId = true := listed_eq_true.mpr ⟨e, w, hold, rfl⟩
    have hno : ¬ Installs o.machine m' w.taskId := by
      intro hi
      rw [not_listed_of_installs h hreg hr hf hok hi] at hlisted
      cases hlisted
    refine ⟨th, (hr.coroutine_eq hf hno).trans hc, ?_⟩
    cases hmove with
    | same h' => rw [h'.asked, hask]
    | install _ _ _ _ hasked | insert _ _ _ _ _ _ _ hasked => rw [hasked, hask]
    | resume id th₀ rest hs hskip hc₀ _ hasked =>
      simp only [Machine.keepsLists, hs, Bool.or_eq_true, decide_eq_true_eq,
        Bool.not_eq_true'] at hok
      have hfree := hok.resolve_left hskip
      have hne : th ≠ th₀ := by
        rintro rfl
        rw [hsound.coroutines.injective _ _ _ hc hc₀, hfree] at hlisted
        cases hlisted
      rw [hasked, Function.update_of_ne hne, hask]
    | ask id th₀ oldCurr rest ρ _ hs _ _ hasked =>
      have hne : th ≠ th₀ := by
        rintro rfl
        rw [hrec.asked_of_body hs] at hask
        cases hask
      rw [hasked, Function.update_of_ne hne, hask]
  · obtain ⟨id, th, oldCurr, rest, hs, -⟩ := hr.body_of_wait hf
    simp only [Machine.keepsLists, hs, decide_eq_true_eq] at hok
    have hcurr : o.machine.sched.currTaskId = id := by rw [hsound.currentTask.curr, hs]; rfl
    have hno : ¬ Installs o.machine m' id := fun hi => by cases hr.starts hf hi
    refine ⟨th, ?_, ?_⟩
    · rw [hcurr, hr.coroutine_eq hf hno, hok]
    · show o.ask _ th = _
      rw [ask_of_body hs, Function.update_self]
  · cases hok

include h hsound hrec hwell hreg hr hf in
lemma Observed.ListsConsistent.step (honce : EventBus.Once m'.bus)
    (hok : o.machine.keepsLists a = true) :
    (o.note a m').ListsConsistent := by
  have hm := note_machine o a m'
  refine listsConsistent_of ?_ ?_ ?_
  · rw [hm]
    exact honce
  · rw [hm]
    exact fun e w hw => h.recorded_step hsound hrec hr hf hok hw
  · intro e w hw
    rw [hm] at hw ⊢
    obtain ⟨th, hc, hask⟩ := h.asked_step hsound hrec hreg hr hf hok hw
    obtain ⟨t, ht, hsus⟩ := (hwell.step hr hsound hrec hf).suspended th _ hask
    rw [hm] at ht
    exact ⟨th, t, hc, ht, hsus, hask⟩

end Step

/-! ### Steps that do not -/

lemma Rule.waiting_eq (hr : Rule m a m') (hd : FlagDown m) (hf : m'.fault = none)
    (hno : ∀ b, ¬ BusAct m a b) (e : EventID) : m'.sched.waiting e = m.sched.waiting e := by
  rcases hr.refines hd hf with hsame | ⟨b, hb, -⟩
  · exact congrFun (congrArg EventBus.Bus.waiting hsame) e
  · exact absurd hb (hno b)

lemma not_busAct_of_starts (ha : a.starts = true) (b : EventBus.Act EventID Waiter) :
    ¬ BusAct m a b := by
  intro hb
  cases hb <;> cases ha

section Exact

variable (h' : (o.note a m').ListsConsistent) (hsound : o.Sound) (hrec : Recorded o)
  (hwell : AskedWell o) (hr : Rule o.machine a m') (hf : m'.fault = none)

include h' hsound hrec hr hf in
lemma not_listed_of_consistent (hi : Installs o.machine m' id) : o.machine.listed id = false := by
  have hm := note_machine o a m'
  rw [← Bool.not_eq_true]
  intro hlisted
  obtain ⟨e, w, hw, rfl⟩ := listed_eq_true.mp hlisted
  have hinst := (hr.move hsound.flagDown hsound.currentTask hf).install_of_installs hr hf hi
  rw [← hr.waiting_eq hsound.flagDown hf (not_busAct_of_starts (hr.starts hf hi)) e] at hw
  obtain ⟨th, t, hc, -, -, hask⟩ := h'.suspended e w (by rw [hm]; exact hw)
  rw [hinst.coroutine, Function.update_self] at hc
  cases hc
  rw [hinst.asked, hrec.asked_nextThread hsound] at hask
  cases hask

lemma keepsLists_enter (h' : (o.note .enter m').ListsConsistent)
    (hr : Rule o.machine .enter m') (hf : m'.fault = none) :
    o.machine.keepsLists .enter = true := by
  have hm := note_machine o .enter m'
  cases hr with
  | fault hf' | resumeFault _ _ _ _ _ _ _ _ _ hf' => simp [hf] at hf'
  | restart _ _ _ _ _ _ hcl => cases hcl
  | skip id rest hs hnr hset => simp [Machine.keepsLists, hs, hnr, hset]
  | resume id rest cnt th t hs hskip _ hc =>
    simp only [Machine.keepsLists, hs, Bool.or_eq_true, decide_eq_true_eq, Bool.not_eq_true']
    refine .inr ?_
    rw [← Bool.not_eq_true]
    intro hlisted
    obtain ⟨e, w, hw, rfl⟩ := listed_eq_true.mp hlisted
    have hkeeps := keeps_drainPendingRemoval o.machine.sched
    have hlist : o.machine.sched.drainPendingRemoval.waiting e = o.machine.sched.waiting e :=
      congrFun (congrArg EventTables.waiting hkeeps.eventTables) e
    rw [← hlist] at hw
    obtain ⟨th', t', hc', -, -, hask⟩ := h'.suspended e w (by rw [hm]; exact hw)
    have hcoroutine : o.machine.sched.taskCoroutineMap w.taskId = some th' := by
      rw [hm] at hc'
      exact hkeeps.taskCoroutineMap ▸ hc'
    cases hc.symm.trans hcoroutine
    have hnone : Function.update o.asked th none th = some (.event e w) := hask
    rw [Function.update_self] at hnone
    cases hnone

include h' hwell hr hf in
lemma asks_of_consistent (hsound : o.Sound) (hrec : Recorded o)
    (ha : a = .wait e ∨ a = .insertWaiter e) : ∃ th,
      m'.sched.taskCoroutineMap o.machine.sched.currTaskId = some th ∧
        ∃ ρ, o.Asks a th ρ := by
  have hm := note_machine o a m'
  obtain ⟨th, t, hc, -, -, hask⟩ := h'.suspended e _ (by rw [hm]; exact hr.waits hf ha)
  rw [hm] at hc
  refine ⟨th, hc, .event e ⟨o.machine.sched.currTaskId, o.machine.nextWaitNo⟩, ?_⟩
  rcases hr.asked hsound hrec hf hask with ⟨hold, -⟩ | ⟨hnew, -⟩
  · exact absurd (hwell.fresh th e _ hold) (Nat.lt_irrefl _)
  · exact hnew

include h' hsound hrec hwell hr hf in
lemma keepsLists_of_consistent : o.machine.keepsLists a = true := by
  have hfree : ∀ id, Installs o.machine m' id → o.machine.listed id = false :=
    fun id => not_listed_of_consistent h' hsound hrec hr hf
  cases a with
  | enter => exact keepsLists_enter h' hr hf
  | appendTask user name body startNow =>
    cases user with
    | none => rfl
    | some id =>
      rw [Machine.keepsLists, Bool.not_eq_true']
      cases hr with
      | fault hf' => simp [hf] at hf'
      | restart _ _ _ _ _ _ hcl => cases hcl
      | append _ _ _ _ _ s hs hch =>
        cases hch
        exact hfree id ⟨_, startTask_log⟩
  | wakeupTask id =>
    rw [Machine.keepsLists, Bool.not_eq_true']
    cases hr with
    | fault hf' => simp [hf] at hf'
    | restart _ _ _ _ _ _ hcl => cases hcl <;> exact hfree id ⟨_, rfl⟩
  | tryWakeupTask id =>
    simp only [Machine.keepsLists, Bool.or_eq_true, decide_eq_true_eq, Bool.not_eq_true']
    cases hr with
    | fault hf' => simp [hf] at hf'
    | restart _ _ _ _ _ _ hcl =>
      cases hcl
      exact .inr (hfree id ⟨_, rfl⟩)
    | tryRunning _ _ hrun hflag => exact .inl ⟨hrun, hflag⟩
  | wait e =>
    obtain ⟨id, th, oldCurr, rest, hs, -⟩ := hr.body_of_wait hf
    obtain ⟨th', hc, ρ, ⟨id', oldCurr', rest', hs'⟩, -⟩ :=
      asks_of_consistent h' hwell hr hf hsound hrec (.inl rfl)
    have hcurr : o.machine.sched.currTaskId = id := by rw [hsound.currentTask.curr, hs]; rfl
    have hno : ¬ Installs o.machine m' id := fun hi => by cases hr.starts hf hi
    rw [hcurr, hr.coroutine_eq hf hno] at hc
    cases hs.symm.trans hs'
    simp [Machine.keepsLists, hs, hc]
  | insertWaiter e =>
    obtain ⟨th, -, ρ, -, hask⟩ := asks_of_consistent h' hwell hr hf hsound hrec (.inr rfl)
    rcases hask with ⟨always, hact, -⟩ | ⟨e', hact, -⟩
    · cases hact
    · cases hact
  | _ => rfl

end Exact

/-! ### Runs -/

lemma fault_of_observed_run (h : run Observed.step o as = some o')
    (hf : o'.machine.fault = none) : o.machine.fault = none := by
  cases as with
  | nil =>
    cases h
    exact hf
  | cons a as =>
    obtain ⟨o₁, hs, -⟩ := Option.bind_eq_some_iff.mp h
    exact (Rule.of_step (Observed.machine_of_step hs).1).1

/-- From a state with consistent lists, a step leads to consistent lists exactly if it keeps
them. -/
lemma listsConsistent_step_iff {ok : Observed → Act → Prop} (hreach : Observed.Reached mode ok o)
    (h : o.ListsConsistent) (hs : o.step a = some o') (hf : o'.machine.fault = none) :
    o'.ListsConsistent ↔ o.machine.keepsLists a = true := by
  obtain ⟨hstep, heq⟩ := Observed.machine_of_step hs
  obtain ⟨hm, hr⟩ := Rule.of_step hstep
  have hmachine : Machine.Reached mode Unguarded o.machine :=
    machine_of_reached hreach fun _ _ _ => trivial
  have hsound := sound_of_reached hreach hm
  have hrec := recorded_of_reached hreach hm
  have hwell := askedWell_of_reached hreach hm
  have hreach' : Observed.Reached mode Unguarded o' := hreach.unguarded.tail trivial hs
  have honce := (sound_of_reached hreach' hf).once
  have hnote : o' = o.note a o'.machine := by
    rw [Observed.observe, if_neg (by simp [hf])] at heq
    exact heq
  rw [hnote]
  constructor
  · exact fun h' => keepsLists_of_consistent h' hsound hrec hwell hr hf
  · exact fun hok => h.step hsound hrec hwell (registered_of_reached hmachine hm) hr hf honce hok

lemma listsConsistent_init (mode : Mode) : (Observed.init mode).ListsConsistent := by
  have hnil : ∀ e, (Observed.init mode).machine.sched.waiting e = [] := fun _ => rfl
  refine ⟨fun e _ i _ _ _ hi => ?_, fun e w hw => ?_, fun e w hw => ?_⟩
  · rw [hnil] at hi
    cases hi
  · rw [hnil] at hw
    cases hw
  · rw [hnil] at hw
    cases hw

/-- The lists are consistent in every state along a run if and only if no step of the run resumes or
starts again a task that stands on a list, and only installed coroutines wait. -/
theorem listsConsistent_iff (h : run Observed.step (Observed.init mode) as = some o)
    (hf : o.machine.fault = none) :
    (∀ n o', run Observed.step (Observed.init mode) (as.take n) = some o' → o'.ListsConsistent) ↔
      Along Observed.step (fun o a => o.machine.keepsLists a = true) (Observed.init mode) as :=
  forall_take_iff_along (P := fun o : Observed => o.machine.fault = none)
    (fun h hf => fault_of_observed_run h hf)
    (fun _ _ _ hreach hI hs hf => listsConsistent_step_iff hreach hI hs hf)
    .refl (listsConsistent_init mode) h hf

/-- `A` waits for `e` and is resumed by `B: e:send()`; it waits again, is removed and started
again. -/
def restartedAfterItsWait : List Act :=
  [.newEventHdl "e" none, .appendTask none "A" 0 true, .enter, .wait 1, .yielded,
   .appendTask none "B" 1 true, .enter, .send 1, .yield .returned, .yielded, .loop, .loop, .enter,
   .wait 1, .yielded, .loop, .loop, .removeTask 1, .tryWakeupTask 1, .enter, .wait 1, .yielded]

theorem listsConsistent_restartedAfterItsWait :
    ∃ o, run Observed.step (Observed.init .normal) restartedAfterItsWait = some o ∧
      o.machine.fault = none ∧ ((∀ n o', run Observed.step (Observed.init .normal)
        (restartedAfterItsWait.take n) = some o' → o'.ListsConsistent) ↔
      Along Observed.step (fun o a => o.machine.keepsLists a = true) (Observed.init .normal)
        restartedAfterItsWait) := by
  have hrun : (run Observed.step (Observed.init .normal) restartedAfterItsWait).map
      (fun o => o.machine.fault) = some none := by decide +kernel
  obtain ⟨o, ho, hf⟩ := Option.map_eq_some_iff.mp hrun
  exact ⟨o, ho, hf, listsConsistent_iff ho hf⟩

/-- A task that waits for an event is resumed by the wake-up loop of that event, and it is started
again only if it was removed since it was installed; tasks join lists by waiting. -/
def Observed.resumesByEvent (o : Observed) : Act → Bool
  | .enter =>
    match o.machine.stack with
    | .call id :: _ =>
      match (o.machine.sched.taskCoroutineMap id).bind o.asked, o.cause with
      | some (.event e _), some (.event e' _) => decide (e' = e)
      | some (.event _ _), _ =>
        decide (0 < o.machine.sched.nrUserRemovalTasks ∧ id ∈ o.machine.sched.userRemovalTasksSet)
      | _, _ => true
    | _ => true
  | .appendTask (some id) _ _ _ | .wakeupTask id | .tryWakeupTask id =>
    !o.waitsForEvent id || removedSince id o.machine.log
  | .insertWaiter _ => false
  | _ => true

/-- `B` and `A` wait for `e`. Woken first, `B` removes `A` and starts it again; the new coroutine
waits for `e`, and the loop comes to the old entry of `A`. -/
def restartedInTheLoop : List Act :=
  [.newEventHdl "e" none, .appendTask none "B" 0 true, .enter, .wait 1, .yielded,
   .appendTask none "A" 1 true, .enter, .wait 1, .yielded,
   .appendTask none "C" 2 true, .enter, .send 1, .yield .returned, .yielded, .loop, .loop, .enter,
   .removeTask 2, .appendTask (some 2) "A" 1 true, .enter, .wait 1, .yielded,
   .yield .returned, .yielded, .loop, .enter, .wait 1]

theorem not_listsConsistent :
    ¬ ∀ o, Observed.Reached .normal (fun o a => o.resumesByEvent a = true) o →
      o.machine.fault = none → o.ListsConsistent := by
  intro hall
  have hrun : (runChecked Observed.step (fun o a => o.resumesByEvent a = true)
      (Observed.init .normal) restartedInTheLoop).map
        (fun o => (o.machine.fault, o.machine.sched.waiting 1)) =
      some (none, [⟨2, 2⟩, ⟨2, 3⟩]) := by
    decide +kernel
  obtain ⟨o, ho, heq⟩ := Option.map_eq_some_iff.mp hrun
  obtain ⟨hf, hlist⟩ := Prod.mk.inj heq
  have honce := (hall o (reach_of_runChecked ho) hf).once 1 1 0 1 ⟨2, 2⟩ ⟨2, 3⟩
    (by rw [hlist]; rfl) (by rw [hlist]; rfl) rfl
  cases honce.2

end Verilua
