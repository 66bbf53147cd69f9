import Verilua.Scheduler.Handles
import Verilua.Scheduler.Restart

/-!
# What a suspension asks for and what ends it

A coroutine suspends itself after it has registered a callback with the simulator or has put its
task on the waiting list of an event. The scheduler keeps neither with the coroutine: a callback and
a waiting list name the task only, and `schedule_task(id)` resumes the coroutine that `id` has then.
`Observed` records beside the machine what each coroutine asked for when it suspended itself and,
at each resumption, what `schedule_task` was called for. The machine reads none of it.
-/

namespace Verilua

open TransitionSystem

variable {m m' : Machine} {a : Act} {mode : Mode} {id : TaskID} {th : ThreadID} {stack : List Frame}

/-! ### The coroutines of the bodies in progress -/

def Frame.bodyThread? : Frame → Option ThreadID
  | .body _ th _ => some th
  | _ => none

/-- The coroutines whose bodies are on the call stack. -/
def Machine.bodies (m : Machine) : List ThreadID := m.stack.filterMap Frame.bodyThread?

/-- A body on the stack is the only one of its coroutine, which is active. -/
structure Bodies (m : Machine) : Prop where
  nodup : m.bodies.Nodup
  active : ∀ th ∈ m.bodies, ∃ t, m.threads th = some t ∧ t.status = .active

lemma Bodies.mono (h : Bodies m) (hs : m'.bodies = m.bodies)
    (ht : ∀ th ∈ m.bodies, m'.threads th = m.threads th) : Bodies m' := by
  refine ⟨hs ▸ h.nodup, fun th hth => ?_⟩
  rw [hs] at hth
  rw [ht th hth]
  exact h.active th hth

lemma Bodies.coroYield {oldCurr : TaskID} {rest : List Frame} (h : Bodies m)
    (hs : m.stack = .body id th oldCurr :: rest) (y : Yielded) :
    Bodies (m.coroYield id th oldCurr rest y) := by
  have hbodies : m.bodies = th :: rest.filterMap Frame.bodyThread? := by
    rw [Machine.bodies, hs]
    rfl
  have hnodup := h.nodup
  rw [hbodies, List.nodup_cons] at hnodup
  refine ⟨hnodup.2, fun th' hth' => ?_⟩
  have hne : th' ≠ th := fun heq => hnodup.1 (heq ▸ hth')
  simp only [Machine.coroYield, Function.update_of_ne hne]
  exact h.active th' (hbodies ▸ List.mem_cons_of_mem _ hth')

lemma Bodies.coroCreate {s : Scheduler} {body : BodyID} (h : Bodies m) (hc : Coroutines m) :
    Bodies (Machine.coroCreate { m with sched := s } id body) := by
  refine h.mono rfl fun th hth => Function.update_of_ne (Nat.ne_of_lt ?_) _ _
  obtain ⟨t, ht, -⟩ := h.active th hth
  exact hc.bound th (by simp [ht])

lemma Bodies.startTask {startNow : Bool} (h : Bodies m) : Bodies (m.startTask id startNow) := by
  unfold Machine.startTask
  split_ifs
  · exact h.mono rfl fun _ _ => rfl
  · exact h

lemma Bodies.step (h : Bodies m) (hc : Coroutines m) (hr : Rule m a m') (hf : m'.fault = none) :
    Bodies m' := by
  cases hr with
  | fault hf' | removeFault _ hf' | resumeFault _ _ _ _ _ _ _ _ _ hf' => simp [hf] at hf'
  | resume id rest cnt th t hs _ _ _ ht hsus =>
    have hbodies : m.bodies = rest.filterMap Frame.bodyThread? := by
      rw [Machine.bodies, hs]
      rfl
    -- the coroutines of the bodies are active, so the suspended one that is resumed is none of them
    have hnew : th ∉ m.bodies := by
      intro hmem
      obtain ⟨t', ht', hact⟩ := h.active th hmem
      cases ht.symm.trans ht'
      rw [hsus] at hact
      cases hact
    refine ⟨?_, fun th' hth' => ?_⟩
    · show (th :: rest.filterMap Frame.bodyThread?).Nodup
      rw [← hbodies]
      exact List.nodup_cons.mpr ⟨hnew, h.nodup⟩
    · rcases List.mem_cons.mp hth' with rfl | hth'
      · exact ⟨_, Function.update_self .., rfl⟩
      · have hmem : th' ∈ m.bodies := hbodies ▸ hth'
        have hne : th' ≠ th := fun heq => hnew (heq ▸ hmem)
        dsimp only
        rw [Function.update_of_ne hne]
        exact h.active th' hmem
  | append => exact (h.coroCreate hc).startTask
  | restart => exact (h.coroCreate hc).mono rfl fun _ _ => rfl
  | wait _ _ _ _ _ _ hs | awaitCallback _ _ _ _ _ hs =>
    have hy := h.coroYield hs .noop
    exact ⟨hy.nodup, hy.active⟩
  | yield y _ _ _ _ hs => exact h.coroYield hs y
  | skip _ _ hs | yieldedLoop _ _ _ _ _ hs | yieldedReturn _ _ _ _ _ hs | loopWake _ _ _ _ _ hs
  | loopNext _ _ _ hs | loopTake _ _ _ _ hs | loopClose _ _ hs | startPass _ hs
  | pickFired _ _ _ _ _ hs | pick _ _ _ _ _ _ hs | passReturn _ _ _ _ _ hs
  | endPass _ _ _ _ hs =>
    refine h.mono ?_ fun _ _ => rfl
    rw [Machine.bodies, Machine.bodies, hs]
    rfl
  | fire | newEventHdl | removeEvent | send | tryRunning | remove | removeWaiting | insertWaiter
  | awaitPosedge | awaitNegedge => exact h.mono rfl fun _ _ => rfl

lemma bodies_of_reached {ok : Machine → Act → Prop} (h : Machine.Reached mode ok m) :
    m.fault = none → Bodies m := by
  refine Reach.invariant (I := fun m : Machine => m.fault = none → Bodies m) h
    (fun _ => ⟨List.nodup_nil, fun _ hth => nomatch hth⟩) ?_
  intro m a m' hreach ih _ hs hf
  obtain ⟨hm, hr⟩ := Rule.of_step hs
  exact (ih hm).step (coroutines_of_reached hreach hm) hr hf

/-- What the call stack says of tasks and coroutines. No body is entered twice, every call in
progress will restore the current task, and a coroutine runs for the task that has it. -/
structure CallStack (m : Machine) : Prop extends Bodies m, CurrentTask m where
  owner : ∀ p ∈ m.runs, ∀ id, m.sched.taskCoroutineMap id = some p.2 → id = p.1

/-- In every mode, however tasks are started, removed and woken from inside each other. -/
theorem callStack_of_reached {ok : Machine → Act → Prop} (h : Machine.Reached mode ok m)
    (hf : m.fault = none) : CallStack m :=
  ⟨bodies_of_reached h hf, currentTask_of_reached h hf,
    fun p hp => ((coroutines_of_reached h hf).runs p hp).2⟩

/-- `A` starts `B`, which starts `C` and goes on. -/
def startedInside : List Act :=
  [.appendTask none "A" 0 true, .enter, .appendTask none "B" 1 true, .enter,
   .appendTask none "C" 2 true, .enter, .yield .noop, .yielded]

theorem callStack_startedInside : ∃ m,
    run Machine.step (Machine.init .normal) startedInside = some m ∧
      m.bodies = [1, 0] ∧ m.sched.currTaskId = 2 ∧ CallStack m := by
  have hrun : (run Machine.step (Machine.init .normal) startedInside).map (fun m =>
      (m.fault, m.bodies, m.sched.currTaskId)) = some (none, [1, 0], 2) := by decide +kernel
  obtain ⟨m, hm, heq⟩ := Option.map_eq_some_iff.mp hrun
  obtain ⟨hf, hbodies, hcurr⟩ := Prod.mk.inj heq |>.imp id Prod.mk.inj
  exact ⟨m, hm, hbodies, hcurr, callStack_of_reached (reach_of_run hm) hf⟩

/-! ### The record -/

/-- What a coroutine has asked for when it suspends itself: the callback it has registered, or its
place on the waiting list of an event. -/
inductive Ask
  | callback (no : Nat)
  | event (e : EventID) (w : Waiter)
  deriving DecidableEq

/-- A coroutine is resumed: what it had asked for, and what `schedule_task` was called for, which
is `none` where a pass or a start called it. -/
structure Resumption where
  thread : ThreadID
  asked : Option Ask
  cause : Option Ask
  /-- If it had asked for an event, that event has been sent since. -/
  sent : Bool
  deriving DecidableEq

structure Observed where
  machine : Machine
  /-- The task and the number of each callback in `machine.callbacks`. -/
  pending : List (TaskID × Nat)
  nextNo : Nat
  /-- What the coroutine has asked for since it was last resumed. -/
  asked : ThreadID → Option Ask
  /-- What the call of `schedule_task` that is being entered was made for. -/
  cause : Option Ask
  /-- Newest first. -/
  resumptions : List Resumption

def Observed.init (mode : Mode) : Observed where
  machine := Machine.init mode
  pending := []
  nextNo := 0
  asked := fun _ => none
  cause := none
  resumptions := []

def Ask.sent (log : List Ev) : Option Ask → Bool
  | some (.event e w) => sentSince e w log
  | _ => true

/-- The coroutine whose body is at the top of the stack. -/
def Machine.bodyThread? (m : Machine) : Option ThreadID := m.stack.head?.bind Frame.bodyThread?

/-- The wait that the wake-up loop at the top of the stack answers next. -/
def Machine.answers? (m : Machine) : Option Ask :=
  match m.stack with
  | .wakeup _ (some (e, w :: _)) :: _ => some (.event e w)
  | _ => none

/-- The coroutine at the top of the stack asks for `ask`. -/
def Observed.ask (o : Observed) (ask : Ask) : ThreadID → Option Ask :=
  match o.machine.bodyThread? with
  | some th => Function.update o.asked th (some ask)
  | none => o.asked

/-- What is recorded of the step `a` to `m'`. -/
def Observed.note (o : Observed) (a : Act) (m' : Machine) : Observed :=
  match a with
  | .fire n => { o with
      machine := m'
      pending := if (o.machine.callbacks[n]?).any Callback.always then o.pending
        else o.pending.eraseIdx n
      cause := (o.pending[n]?).map fun p => .callback p.2 }
  | .loop => { o with machine := m', cause := o.machine.answers? }
  | .pick _ | .appendTask .. | .wakeupTask _ | .tryWakeupTask _ =>
    { o with machine := m', cause := none }
  | .enter =>
    match m'.log with
    | .resume _ th _ :: _ => { o with
        machine := m'
        asked := Function.update o.asked th none
        resumptions := ⟨th, o.asked th, o.cause, Ask.sent o.machine.log (o.asked th)⟩ ::
          o.resumptions }
    | _ => { o with machine := m' }
  | .wait e => { o with
      machine := m'
      asked := o.ask (.event e ⟨o.machine.sched.currTaskId, o.machine.nextWaitNo⟩) }
  | .awaitCallback _ => { o with
      machine := m'
      pending := o.pending ++ [(o.machine.sched.currTaskId, o.nextNo)]
      nextNo := o.nextNo + 1
      asked := o.ask (.callback o.nextNo) }
  | _ => { o with machine := m' }

/-- An error leaves no record. -/
def Observed.observe (o : Observed) (a : Act) (m' : Machine) : Observed :=
  if m'.fault.isSome then { o with machine := m' } else o.note a m'

def Observed.step (o : Observed) (a : Act) : Option Observed :=
  (o.machine.step a).map (o.observe a)

abbrev Observed.Reached (mode : Mode) (ok : Observed → Act → Prop) : Observed → Prop :=
  Reach Observed.step ok (Observed.init mode)

variable {o o' : Observed} {ok : Observed → Act → Prop} {ρ : Ask} {e : EventID} {w : Waiter}

@[simp] lemma note_machine (o : Observed) (a : Act) (m' : Machine) : (o.note a m').machine = m' := by
  unfold Observed.note
  split
  case h_7 => split <;> rfl
  all_goals rfl

@[simp] lemma observe_machine (o : Observed) (a : Act) (m' : Machine) :
    (o.observe a m').machine = m' := by
  unfold Observed.observe
  split_ifs
  · rfl
  · exact note_machine o a m'

lemma Observed.machine_of_step (h : o.step a = some o') :
    o.machine.step a = some o'.machine ∧ o' = o.observe a o'.machine := by
  obtain ⟨m', hs, rfl⟩ := Option.map_eq_some_iff.mp h
  rw [observe_machine]
  exact ⟨hs, rfl⟩

lemma machine_of_reached {ok' : Machine → Act → Prop} (h : Observed.Reached mode ok o)
    (himp : ∀ o a, ok o a → ok' o.machine a) : Machine.Reached mode ok' o.machine :=
  h.map Observed.machine fun _ _ _ _ hok hs => Reach.refl.tail (himp _ _ hok) (Observed.machine_of_step hs).1

/-! ### What can still call a task -/

/-- `ask` is still registered for `id`: the simulator holds the callback, or the task is on the
waiting list or in what a wake-up loop has taken of it. -/
def Observed.Outstanding (o : Observed) (id : TaskID) : Ask → Prop
  | .callback no => (id, no) ∈ o.pending
  | .event e w => w.taskId = id ∧ w ∈ o.machine.bus.tokens e

lemma Rule.mem_tokens (hr : Rule m a m') (hd : FlagDown m) (hf : m'.fault = none)
    (hw : w ∈ m'.bus.tokens e) : w ∈ m.bus.tokens e ∨
      (a = .wait e ∨ a = .insertWaiter e) ∧ w = ⟨m.sched.currTaskId, m.nextWaitNo⟩ := by
  rcases hr.refines hd hf with hsame | ⟨b, hb, hstep⟩
  · rw [hsame] at hw
    exact .inl hw
  · refine ((EventBus.Rule.of_step hstep).mem_tokens hw).imp_right fun heq => ?_
    subst heq
    cases hb with
    | wait => exact ⟨.inl rfl, rfl⟩
    | insertWaiter => exact ⟨.inr rfl, rfl⟩

/-- How the top of the stack comes to be a call of `schedule_task`. -/
inductive Called (m : Machine) (a : Act) (id : TaskID) (m' : Machine) : Prop
  | fire (n cb) (ha : a = .fire n) (hcb : m.callbacks[n]? = some cb) (hid : cb.taskId = id)
  | wake (e : EventID) (w : Waiter) (ha : a = .loop) (hw : m.answers? = some (.event e w)) (hid : w.taskId = id)
      (hlog : m'.log = .wake e w :: m.log)
  | pick (kind start visited rest) (ha : a = .pick id)
      (hs : m.stack = .pass kind start visited none :: rest) (hk : id ∈ m.sched.passKeys kind)
      (hfired : kind = .all → m.mode = .normal → m.sched.taskFiredStatusMap id = false)
  | start (hi : Installs m m' id)

lemma Nested.not_call (h : Nested stack) (id : TaskID) (rest : List Frame) :
    stack ≠ .call id :: rest := by
  rintro rfl
  exact h

lemma Rule.called {rest : List Frame} (hr : Rule m a m') (hshape : Shaped m.stack)
    (hf : m'.fault = none) (hs' : m'.stack = .call id :: rest) : Called m a id m' := by
  cases hr with
  | fault hf' | removeFault _ hf' | resumeFault _ _ _ _ _ _ _ _ _ hf' => simp [hf] at hf'
  | skip id₀ rest₀ hs | yieldedReturn id₀ th oldCurr y rest₀ hs | loopClose next rest₀ hs =>
    rw [hs] at hshape
    have hn : Nested rest₀ := hshape
    exact absurd hs' (hn.not_call id rest)
  | endPass kind start visited rest₀ hs =>
    rw [hs] at hshape
    cases hshape.pass_bottom
    cases hs'
  | loopWake next e w ws rest₀ hs =>
    cases hs'
    exact .wake e w rfl (by simp [Machine.answers?, hs]) rfl rfl
  | pick id₀ kind start visited ret rest₀ hs hk hv hret hfired =>
    cases hs'
    exact .pick kind start visited rest₀ rfl hs hk hfired
  | fire n cb hs hcb =>
    cases hs'
    exact .fire n cb rfl hcb rfl
  | restart _ id₀ name body s hs =>
    cases hs'
    exact .start ⟨_, rfl⟩
  | append user id₀ name body startNow s hs =>
    rcases startTask_stack (Machine.installTask { m with sched := s } id₀ name body)
      id₀ startNow with heq | heq
    · exact absurd (heq.symm.trans hs') ((hshape.nested_of_atCode hs).not_call id rest)
    · cases heq.symm.trans hs'
      exact .start ⟨m.nextThread, startTask_log⟩
  | resume | yieldedLoop | loopNext | loopTake | startPass | pickFired | passReturn | wait
  | awaitCallback | yield => cases hs'
  | newEventHdl _ _ _ _ hs | removeEvent _ hs | send _ hs | tryRunning _ hs | remove _ hs
  | removeWaiting _ _ _ _ _ hs =>
    exact absurd hs' ((hshape.nested_of_atCode hs).not_call id rest)
  | insertWaiter _ _ _ _ _ _ hs | awaitPosedge _ _ _ _ hs | awaitNegedge _ _ _ _ hs =>
    cases hs.symm.trans hs'

/-! ### What a step changes -/

/-- No coroutine is installed, none asks for anything and none is resumed. -/
structure Same (o o' : Observed) : Prop where
  coroutine : o'.machine.sched.taskCoroutineMap = o.machine.sched.taskCoroutineMap
  asked : o'.asked = o.asked
  resumptions : o'.resumptions = o.resumptions
  outstanding : ∀ id ρ, o'.Outstanding id ρ → o.Outstanding id ρ

/-- What a step changes of the coroutines and of what they have asked for. -/
inductive Move (o : Observed) : Act → Observed → Prop
  | same {a : Act} {o' : Observed} (h : Same o o') (ha : ∀ id, ¬ Installs o.machine o'.machine id) : Move o a o'
  /-- A coroutine of its own is installed for `id`. -/
  | install {a : Act} {o' : Observed} (id : TaskID) (hi : Installs o.machine o'.machine id)
      (hc : o'.machine.sched.taskCoroutineMap =
        Function.update o.machine.sched.taskCoroutineMap id (some o.machine.nextThread))
      (hcause : o'.cause = none) (hasked : o'.asked = o.asked)
      (hres : o'.resumptions = o.resumptions)
      (hout : ∀ id ρ, o'.Outstanding id ρ → o.Outstanding id ρ) : Move o a o'
  | resume {o' : Observed} (id : TaskID) (th : ThreadID) (rest : List Frame)
      (hs : o.machine.stack = .call id :: rest)
      (hskip : ¬ (0 < o.machine.sched.nrUserRemovalTasks ∧
        id ∈ o.machine.sched.userRemovalTasksSet))
      (hth : o.machine.sched.taskCoroutineMap id = some th)
      (hc : o'.machine.sched.taskCoroutineMap = o.machine.sched.taskCoroutineMap)
      (hasked : o'.asked = Function.update o.asked th none)
      (hres : o'.resumptions =
        ⟨th, o.asked th, o.cause, Ask.sent o.machine.log (o.asked th)⟩ :: o.resumptions)
      (hout : ∀ id ρ, o'.Outstanding id ρ → o.Outstanding id ρ) : Move o .enter o'
  /-- The body of `th` suspends itself and asks for `ρ`. -/
  | ask {a : Act} {o' : Observed} (id : TaskID) (th : ThreadID) (oldCurr : TaskID) (rest : List Frame) (ρ : Ask)
      (ha : (∃ e w, a = .wait e ∧ ρ = .event e w) ∨ ∃ always no, a = .awaitCallback always ∧ ρ = .callback no)
      (hs : o.machine.stack = .body id th oldCurr :: rest)
      (hs' : o'.machine.stack = .resumed id th oldCurr .noop :: rest)
      (hc : o'.machine.sched.taskCoroutineMap = o.machine.sched.taskCoroutineMap)
      (hasked : o'.asked = Function.update o.asked th (some ρ))
      (hres : o'.resumptions = o.resumptions)
      (hout : ∀ id' ρ', o'.Outstanding id' ρ' → o.Outstanding id' ρ' ∨ id' = id ∧ ρ' = ρ) :
      Move o a o'
  /-- The body of `id` puts its task on a waiting list and goes on. -/
  | insert {o' : Observed} (id : TaskID) (th : ThreadID) (oldCurr : TaskID) (rest : List Frame) (e : EventID)
      (hs : o.machine.stack = .body id th oldCurr :: rest)
      (hc : o'.machine.sched.taskCoroutineMap = o.machine.sched.taskCoroutineMap)
      (hasked : o'.asked = o.asked) (hres : o'.resumptions = o.resumptions)
      (hout : ∀ id' ρ', o'.Outstanding id' ρ' → o.Outstanding id' ρ' ∨ id' = id) :
      Move o (.insertWaiter e) o'

lemma outstanding_note (hr : Rule o.machine a m') (hd : FlagDown o.machine) (hf : m'.fault = none)
    (hp : (o.note a m').pending ⊆ o.pending)
    (ha : ∀ e, a ≠ .wait e ∧ a ≠ .insertWaiter e) (id : TaskID) (ρ : Ask)
    (h : (o.note a m').Outstanding id ρ) : o.Outstanding id ρ := by
  cases ρ with
  | callback no => exact hp h
  | event e w =>
    obtain ⟨hid, hw⟩ := h
    rw [note_machine] at hw
    refine ⟨hid, (hr.mem_tokens hd hf hw).resolve_right ?_⟩
    rintro ⟨hact | hact, -⟩
    · exact (ha e).1 hact
    · exact (ha e).2 hact

lemma Move.of_same (hr : Rule o.machine a m') (hd : FlagDown o.machine) (hf : m'.fault = none)
    (hc : m'.sched.taskCoroutineMap = o.machine.sched.taskCoroutineMap)
    (hlog : ∀ id th, m'.log ≠ .create id th :: o.machine.log)
    (hasked : (o.note a m').asked = o.asked) (hres : (o.note a m').resumptions = o.resumptions)
    (hp : (o.note a m').pending ⊆ o.pending)
    (ha : ∀ e, a ≠ .wait e ∧ a ≠ .insertWaiter e) : Move o a (o.note a m') := by
  refine .same ⟨by rw [note_machine]; exact hc, hasked, hres, outstanding_note hr hd hf hp ha⟩ ?_
  rintro id ⟨th, h⟩
  rw [note_machine] at h
  exact hlog id th h

lemma cons_ne_log {x : Ev} {log : List Ev} : log ≠ x :: log := (List.cons_ne_self _ _).symm

lemma Rule.move (hr : Rule o.machine a m') (hd : FlagDown o.machine) (hcur : CurrentTask o.machine)
    (hf : m'.fault = none) : Move o a (o.note a m') := by
  have hr' := hr
  cases hr with
  | fault hf' | removeFault _ hf' | resumeFault _ _ _ _ _ _ _ _ _ hf' => simp [hf] at hf'
  | skip id rest hs =>
    exact .of_same hr' hd hf (keeps_skip ..).taskCoroutineMap (fun _ _ h => by cases h) rfl rfl
      (List.Subset.refl _) (by simp)
  | resume id rest cnt th t hs hskip _ hc =>
    refine .resume id th rest hs hskip hc ?_ rfl rfl
      (outstanding_note hr' hd hf (List.Subset.refl _) (by simp))
    rw [note_machine]
    exact (keeps_drainPendingRemoval _).taskCoroutineMap
  | yieldedLoop id th oldCurr y | yieldedReturn id th oldCurr y =>
    refine .of_same hr' hd hf (settle_taskCoroutineMap ..) (fun id' th' h => ?_) rfl rfl
      (List.Subset.refl _) (by simp)
    dsimp only at h
    split_ifs at h
    · cases h
    · exact cons_ne_log h
  | loopWake | send =>
    exact .of_same hr' hd hf rfl (fun _ _ h => by cases h) rfl rfl (List.Subset.refl _) (by simp)
  | remove | removeWaiting =>
    exact .of_same hr' hd hf (keeps_flagUserRemoval ..).taskCoroutineMap (fun _ _ h => by cases h)
      rfl rfl (List.Subset.refl _) (by simp)
  | newEventHdl name user e s hs hch =>
    exact .of_same hr' hd hf hch.taskCoroutineMap (fun _ _ h => cons_ne_log h) rfl rfl
      (List.Subset.refl _) (by simp)
  | fire n cb hs hcb =>
    refine .of_same hr' hd hf rfl (fun _ _ h => cons_ne_log h) rfl rfl ?_ (by simp)
    show (if (o.machine.callbacks[n]?).any Callback.always then o.pending
      else o.pending.eraseIdx n) ⊆ o.pending
    split_ifs
    · exact List.Subset.refl _
    · exact List.eraseIdx_subset
  | append user id name body startNow s hs hch =>
    refine .install id ⟨o.machine.nextThread, ?_⟩ ?_ rfl rfl rfl
      (outstanding_note hr' hd hf (List.Subset.refl _) (by simp))
    · rw [note_machine]
      exact startTask_log
    · rw [note_machine, startTask_threads.2]
      simp only [Machine.installTask, Machine.coroCreate]
      rw [(keeps_clearUserRemoval s id).taskCoroutineMap, hch.taskCoroutineMap]
  | restart _ id name body s hs hcl =>
    have hnote : ∀ m', o.note a m' = { o with machine := m', cause := none } := fun m' => by
      cases hcl <;> rfl
    refine .install id ⟨o.machine.nextThread, ?_⟩ ?_ (by rw [hnote]) (by rw [hnote])
      (by rw [hnote]) (outstanding_note hr' hd hf ?_ ?_)
    · rw [note_machine]
      rfl
    · rw [note_machine]
      exact congrArg (Function.update · id _) hcl.keeps.taskCoroutineMap
    · rw [hnote]
      exact List.Subset.refl _
    · cases hcl <;> simp
  | tryRunning =>
    exact .of_same hr' hd hf rfl (fun _ _ h => cons_ne_log h) rfl rfl (List.Subset.refl _) (by simp)
  | wait e l id th oldCurr rest hs =>
    have hid : o.machine.sched.currTaskId = id := by rw [hcur.curr, hs]; rfl
    refine .ask id th oldCurr rest (.event e ⟨o.machine.sched.currTaskId, o.machine.nextWaitNo⟩)
      (.inl ⟨e, _, rfl, rfl⟩) hs (by rw [note_machine]; rfl) (by rw [note_machine]) ?_ rfl ?_
    · show o.ask _ = _
      simp [Observed.ask, Machine.bodyThread?, hs, Frame.bodyThread?]
    · rintro id' (no | ⟨e', w'⟩) h
      · exact .inl h
      · obtain ⟨hid', hw⟩ := h
        rw [note_machine] at hw
        refine (hr'.mem_tokens hd hf hw).imp (fun hw => ⟨hid', hw⟩) ?_
        rintro ⟨hact | hact, rfl⟩
        · cases hact
          exact ⟨hid'.symm.trans hid, rfl⟩
        · cases hact
  | awaitCallback always id th oldCurr rest hs =>
    have hid : o.machine.sched.currTaskId = id := by rw [hcur.curr, hs]; rfl
    refine .ask id th oldCurr rest (.callback o.nextNo) (.inr ⟨always, _, rfl, rfl⟩) hs
      (by rw [note_machine]; rfl) (by rw [note_machine]; rfl) ?_ rfl ?_
    · show o.ask _ = _
      simp [Observed.ask, Machine.bodyThread?, hs, Frame.bodyThread?]
    · rintro id' (no | ⟨e', w'⟩) h
      · rcases List.mem_append.mp h with h | h
        · exact .inl h
        · cases List.mem_singleton.mp h
          exact .inr ⟨hid, rfl⟩
      · obtain ⟨hid', hw⟩ := h
        rw [note_machine] at hw
        refine .inl ⟨hid', (hr'.mem_tokens hd hf hw).resolve_right ?_⟩
        rintro ⟨hact | hact, -⟩ <;> cases hact
  | insertWaiter e l id th oldCurr rest hs =>
    have hid : o.machine.sched.currTaskId = id := by rw [hcur.curr, hs]; rfl
    refine .insert id th oldCurr rest e hs (by rw [note_machine]) rfl rfl ?_
    rintro id' (no | ⟨e', w'⟩) h
    · exact .inl h
    · obtain ⟨hid', hw⟩ := h
      rw [note_machine] at hw
      refine (hr'.mem_tokens hd hf hw).imp (fun hw => ⟨hid', hw⟩) ?_
      rintro ⟨-, rfl⟩
      exact hid'.symm.trans hid
  | loopNext | loopTake | loopClose | startPass | pickFired | pick | passReturn | endPass
  | removeEvent | awaitPosedge | awaitNegedge | yield =>
    exact .of_same hr' hd hf rfl (fun _ _ h => cons_ne_log h) rfl rfl (List.Subset.refl _) (by simp)

/-! ### The record in every reached state -/

/-- The callbacks and their numbers belong together, and what runs has asked for nothing. -/
structure Recorded (o : Observed) : Prop where
  pending : o.pending.map Prod.fst = o.machine.callbacks.map Callback.taskId
  nodup : (o.pending.map Prod.snd).Nodup
  fresh : ∀ p ∈ o.pending, p.2 < o.nextNo
  known : ∀ th, o.asked th ≠ none → (o.machine.threads th).isSome
  bodies : ∀ th ∈ o.machine.bodies, o.asked th = none

lemma Recorded.getElem? (h : Recorded o) {n : Nat} {cb : Callback}
    (hcb : o.machine.callbacks[n]? = some cb) : ∃ no, o.pending[n]? = some (cb.taskId, no) := by
  have hfst : (o.pending.map Prod.fst)[n]? = some cb.taskId := by
    rw [h.pending, List.getElem?_map, hcb]
    rfl
  rw [List.getElem?_map] at hfst
  obtain ⟨⟨i, no⟩, hp, rfl⟩ := Option.map_eq_some_iff.mp hfst
  exact ⟨no, hp⟩

lemma Recorded.not_mem_eraseIdx (h : Recorded o) {n no : Nat} (hp : o.pending[n]? = some (id, no)) :
    (id, no) ∉ o.pending.eraseIdx n := by
  intro hmem
  have hnd := h.nodup
  obtain ⟨hlt, hget⟩ := List.getElem?_eq_some_iff.mp hp
  have hsplit : o.pending = o.pending.take n ++ (id, no) :: o.pending.drop (n + 1) := by
    conv_lhs => rw [← List.take_append_drop n o.pending, List.drop_eq_getElem_cons hlt, hget]
  rw [hsplit, List.map_append, List.map_cons, List.nodup_middle, List.nodup_cons] at hnd
  rw [List.eraseIdx_eq_take_drop_succ] at hmem
  refine hnd.1 ?_
  rw [← List.map_append]
  exact List.mem_map_of_mem hmem

lemma Rule.threads_isSome (hr : Rule m a m') (hf : m'.fault = none) (h : (m.threads th).isSome) :
    (m'.threads th).isSome := by
  have hupd : ∀ (th₀ : ThreadID) (t : Thread),
      (Function.update m.threads th₀ (some t) th).isSome := by
    intro th₀ t
    by_cases heq : th = th₀
    · subst heq
      rw [Function.update_self]
      rfl
    · rw [Function.update_of_ne heq]
      exact h
  cases hr with
  | fault hf' | removeFault _ hf' | resumeFault _ _ _ _ _ _ _ _ _ hf' => simp [hf] at hf'
  | resume => exact hupd ..
  | append =>
    rw [startTask_threads.1]
    exact hupd ..
  | restart => exact hupd ..
  | wait | awaitCallback | yield =>
    simp only [Machine.coroYield]
    rw [isSome_update_map]
    exact h
  | _ => exact h

lemma Rule.mem_bodies (hr : Rule m a m') (hf : m'.fault = none) (h : th ∈ m'.bodies) :
    th ∈ m.bodies ∨ a = .enter ∧ ∃ id t, m'.log = .resume id th t :: m.log := by
  have htail : ∀ {f : Frame} {rest : List Frame}, m.stack = f :: rest →
      th ∈ rest.filterMap Frame.bodyThread? → th ∈ m.bodies := by
    intro f rest hs hmem
    rw [Machine.bodies, hs, List.filterMap_cons]
    split
    · exact hmem
    · exact List.mem_cons_of_mem _ hmem
  cases hr with
  | fault hf' | removeFault _ hf' | resumeFault _ _ _ _ _ _ _ _ _ hf' => simp [hf] at hf'
  | resume id rest cnt th₀ t hs =>
    rcases List.mem_cons.mp h with rfl | h
    · exact .inr ⟨rfl, id, _, rfl⟩
    · exact .inl (htail hs h)
  | append =>
    rename_i user id name body startNow s hs hch
    rcases startTask_stack (Machine.installTask { m with sched := s } id name body)
      id startNow with heq | heq
    all_goals
      rw [Machine.bodies, heq] at h
      exact .inl h
  | startPass => cases h
  | skip _ _ hs | yieldedLoop _ _ _ _ _ hs | yieldedReturn _ _ _ _ _ hs | loopWake _ _ _ _ _ hs
  | loopNext _ _ _ hs | loopTake _ _ _ _ hs | loopClose _ _ hs
  | pickFired _ _ _ _ _ hs | pick _ _ _ _ _ _ hs | passReturn _ _ _ _ _ hs
  | endPass _ _ _ _ hs | wait _ _ _ _ _ _ hs | awaitCallback _ _ _ _ _ hs
  | yield _ _ _ _ _ hs => exact .inl (htail hs h)
  | fire | restart | newEventHdl | removeEvent | send | tryRunning | remove | removeWaiting
  | insertWaiter | awaitPosedge | awaitNegedge => exact .inl h

lemma Rule.called_of_resume {t : Bool} (hr : Rule m a m') (hf : m'.fault = none)
    (hlog : m'.log = .resume id th t :: m.log) :
    ∃ rest, m.stack = .call id :: rest ∧ m.sched.taskCoroutineMap id = some th := by
  cases hr with
  | fault hf' | removeFault _ hf' | resumeFault _ _ _ _ _ _ _ _ _ hf' => simp [hf] at hf'
  | resume id₀ rest cnt th₀ t hs _ _ hc =>
    cases hlog
    exact ⟨rest, hs, hc⟩
  | yieldedLoop | yieldedReturn =>
    dsimp only at hlog
    split_ifs at hlog
    · cases hlog
    · exact absurd hlog cons_ne_log
  | append => cases startTask_log.symm.trans hlog
  | skip | restart | loopWake | send | remove | removeWaiting | wait | insertWaiter => cases hlog
  | _ => exact absurd hlog cons_ne_log

lemma Recorded.callbacks_eq (h : Recorded o) (hcb : m'.callbacks = o.machine.callbacks)
    (hp : (o.note a m').pending = o.pending) (hn : (o.note a m').nextNo = o.nextNo) :
    (o.note a m').pending.map Prod.fst = m'.callbacks.map Callback.taskId ∧
      ((o.note a m').pending.map Prod.snd).Nodup ∧
      ∀ p ∈ (o.note a m').pending, p.2 < (o.note a m').nextNo := by
  rw [hp, hn, hcb]
  exact ⟨h.pending, h.nodup, h.fresh⟩

lemma Recorded.callbacks_step (h : Recorded o) (hr : Rule o.machine a m') (hf : m'.fault = none) :
    (o.note a m').pending.map Prod.fst = m'.callbacks.map Callback.taskId ∧
      ((o.note a m').pending.map Prod.snd).Nodup ∧
      ∀ p ∈ (o.note a m').pending, p.2 < (o.note a m').nextNo := by
  cases hr with
  | fault hf' | removeFault _ hf' | resumeFault _ _ _ _ _ _ _ _ _ hf' => simp [hf] at hf'
  | fire n cb hs hcb =>
    simp only [Observed.note, hcb, Option.any_some]
    split_ifs
    · exact ⟨h.pending, h.nodup, h.fresh⟩
    · refine ⟨?_, h.nodup.sublist ((List.eraseIdx_sublist ..).map _),
        fun p hp => h.fresh p (List.eraseIdx_subset hp)⟩
      rw [← List.eraseIdx_map, ← List.eraseIdx_map, h.pending]
  | awaitCallback always id th oldCurr rest hs =>
    refine ⟨?_, ?_, ?_⟩
    · simp only [Observed.note, Machine.coroYield, List.map_append, h.pending]
      rfl
    · show ((o.pending ++ [_]).map Prod.snd).Nodup
      rw [List.map_append, List.map_singleton, List.nodup_append]
      refine ⟨h.nodup, List.nodup_singleton _, ?_⟩
      intro no hno no' hno'
      obtain ⟨p, hp, rfl⟩ := List.mem_map.mp hno
      rw [List.mem_singleton.mp hno']
      exact Nat.ne_of_lt (h.fresh p hp)
    · intro p hp
      show p.2 < o.nextNo + 1
      rcases List.mem_append.mp hp with hp | hp
      · exact Nat.lt_succ_of_lt (h.fresh p hp)
      · rw [List.mem_singleton.mp hp]
        exact Nat.lt_succ_self _
  | append =>
    refine h.callbacks_eq ?_ rfl rfl
    unfold Machine.startTask
    split_ifs <;> rfl
  | restart _ id name body s hs hcl =>
    cases hcl <;> exact h.callbacks_eq rfl rfl rfl
  | _ => exact h.callbacks_eq rfl rfl rfl

lemma Recorded.step (h : Recorded o) (hr : Rule o.machine a m') (hd : FlagDown o.machine)
    (hcur : CurrentTask o.machine) (hb : Bodies o.machine) (hf : m'.fault = none) :
    Recorded (o.note a m') := by
  obtain ⟨hp, hnd, hfresh⟩ := h.callbacks_step hr hf
  have hmove := hr.move hd hcur hf
  have hm := note_machine o a m'
  refine ⟨by rw [hm]; exact hp, hnd, hfresh, fun th hth => ?_, fun th hth => ?_⟩
  · rw [hm]
    cases hmove with
    | same h' => exact hr.threads_isSome hf (h.known th (h'.asked ▸ hth))
    | install _ _ _ _ hasked | insert _ _ _ _ _ _ _ hasked =>
      exact hr.threads_isSome hf (h.known th (hasked ▸ hth))
    | resume id th₀ rest hs hskip hc hc' hasked =>
      rw [hasked] at hth
      refine hr.threads_isSome hf (h.known th fun hnone => hth ?_)
      by_cases heq : th = th₀
      · rw [heq, Function.update_self]
      · rw [Function.update_of_ne heq, hnone]
    | ask id th₀ oldCurr rest ρ ha hs hs' hc hasked =>
      by_cases heq : th = th₀
      · obtain ⟨t, ht, -⟩ := hb.active th (by simp [Machine.bodies, hs, Frame.bodyThread?, heq])
        exact hr.threads_isSome hf (by rw [ht]; rfl)
      · rw [hasked, Function.update_of_ne heq] at hth
        exact hr.threads_isSome hf (h.known th hth)
  · rw [hm] at hth
    rcases hr.mem_bodies hf hth with hold | ⟨rfl, id, t, hlog⟩
    · have hnone := h.bodies th hold
      cases hmove with
      | same h' => rw [h'.asked, hnone]
      | install _ _ _ _ hasked | insert _ _ _ _ _ _ _ hasked => rw [hasked, hnone]
      | resume id th₀ rest hs hskip hc hc' hasked =>
        rw [hasked]
        by_cases heq : th = th₀
        · rw [heq, Function.update_self]
        · rw [Function.update_of_ne heq, hnone]
      | ask id th₀ oldCurr rest ρ ha hs hs' hc hasked =>
        rw [hm] at hs'
        have hnodup := hb.nodup
        have hbodies : o.machine.bodies = th₀ :: rest.filterMap Frame.bodyThread? := by
          rw [Machine.bodies, hs]
          rfl
        have hrest : th ∈ rest.filterMap Frame.bodyThread? := by
          rw [Machine.bodies, hs'] at hth
          exact hth
        rw [hbodies, List.nodup_cons] at hnodup
        have hne : th ≠ th₀ := fun heq => hnodup.1 (heq ▸ hrest)
        rw [hasked, Function.update_of_ne hne, hnone]
    · simp [Observed.note, hlog]

/-- What the invariants of a record may use of the state they are proved in. -/
structure Observed.Sound (o : Observed) : Prop where
  shaped : Shaped o.machine.stack
  flagDown : FlagDown o.machine
  currentTask : CurrentTask o.machine
  counted : o.machine.sched.Counted
  coroutines : Coroutines o.machine
  bodies : Bodies o.machine
  once : EventBus.Once o.machine.bus

lemma sound_of_reached (h : Observed.Reached mode ok o) (hf : o.machine.fault = none) : o.Sound := by
  have hm : Machine.Reached mode Unguarded o.machine := machine_of_reached h fun _ _ _ => trivial
  obtain ⟨b, honce, -, heq⟩ := once_of_reached hm
  exact ⟨shaped_of_reached hm hf, flagDown_of_reached hm hf, currentTask_of_reached hm hf,
    counted_of_reached hm hf, coroutines_of_reached hm hf, bodies_of_reached hm hf, heq hf ▸ honce⟩

lemma recorded_of_reached (h : Observed.Reached mode ok o) : o.machine.fault = none → Recorded o := by
  refine Reach.invariant (I := fun o : Observed => o.machine.fault = none → Recorded o) h ?_ ?_
  · intro _
    constructor <;> simp [Observed.init, Machine.init, Machine.bodies]
  · intro o a o' hreach ih _ hs hf
    obtain ⟨hstep, heq⟩ := Observed.machine_of_step hs
    obtain ⟨hm, hr⟩ := Rule.of_step hstep
    have hsound := sound_of_reached hreach hm
    rw [heq, Observed.observe, if_neg (by simp [hf])]
    exact (ih hm).step hr hsound.flagDown hsound.currentTask hsound.bodies hf

end Verilua
