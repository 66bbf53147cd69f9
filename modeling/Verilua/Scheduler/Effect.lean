import Verilua.Scheduler.Inherit

/-!
# Effects on the coroutines

`Effect m a m'` lists what a step can do to the coroutines: it installs one, resumes one, suspends
one, or does none of it. Where nobody removes a running task and nobody waits for an event, the
tables are `Tidy`: a task whose coroutine has not finished is in the running map, a coroutine is
installed only for a task whose last one has finished, and a task is started once.
-/

namespace Verilua

open TransitionSystem

variable {m m' : Machine} {a : Act} {mode : Mode} {ok : Machine → Act → Prop} {id : TaskID}
  {th : ThreadID}

/-! ### What a step does to the coroutines -/

/-- The actions that suspend a task without finishing it, those of the simulator, and an error that
a task raises. -/
def Act.blocks : Act → Bool
  | .fire _ | .wait _ | .insertWaiter _ | .awaitCallback _ | .awaitPosedge | .awaitNegedge
  | .yield .noop | .yield .unknown | .raise => true
  | _ => false

def Ev.resumed? : Ev → Option ThreadID
  | .resume _ th _ => some th
  | _ => none

/-- The coroutines that have been resumed between `m` and `m'`, the last one first. -/
def Machine.resumed (m m' : Machine) : List ThreadID :=
  (m'.log.take (m'.log.length - m.log.length)).filterMap Ev.resumed?

/-- The coroutine has been resumed. -/
def Machine.Started (m : Machine) (th : ThreadID) : Prop := ∃ id b, .resume id th b ∈ m.log

/-- The step logs no resumption. -/
def Quiet (m m' : Machine) : Prop := ∃ l, m'.log = l ++ m.log ∧ ∀ x ∈ l, x.resumed? = none

lemma Quiet.of_eq (h : m'.log = m.log) : Quiet m m' := ⟨[], h, by simp⟩

lemma Quiet.cons {x : Ev} (h : m'.log = x :: m.log) (hx : x.resumed? = none) : Quiet m m' :=
  ⟨[x], h, by simpa using hx⟩

lemma resumed_of_append {l : List Ev} (h : m'.log = l ++ m.log) :
    m.resumed m' = l.filterMap Ev.resumed? := by
  simp [Machine.resumed, h]

lemma Quiet.resumed (h : Quiet m m') : m.resumed m' = [] := by
  obtain ⟨l, hl, hx⟩ := h
  rw [resumed_of_append hl]
  exact List.filterMap_eq_nil_iff.mpr hx

lemma Quiet.started (h : Quiet m m') : m'.Started th ↔ m.Started th := by
  obtain ⟨l, hl, hx⟩ := h
  refine ⟨fun ⟨id, b, hmem⟩ => ⟨id, b, ?_⟩, fun ⟨id, b, hmem⟩ => ⟨id, b, ?_⟩⟩
  · rw [hl] at hmem
    exact (List.mem_append.mp hmem).resolve_left fun hnew => nomatch hx _ hnew
  · exact hl ▸ List.mem_append_right _ hmem

lemma started_cons {b : Bool} {th' : ThreadID} (h : m'.log = .resume id th b :: m.log) :
    m'.Started th' ↔ th' = th ∨ m.Started th' := by
  simp only [Machine.Started, h, List.mem_cons, Ev.resume.injEq]
  constructor
  · rintro ⟨id', b', ⟨-, rfl, -⟩ | hmem⟩
    · exact .inl rfl
    · exact .inr ⟨id', b', hmem⟩
  · rintro (rfl | ⟨id', b', hmem⟩)
    · exact ⟨id, b, .inl ⟨rfl, rfl, rfl⟩⟩
    · exact ⟨id', b', .inr hmem⟩

/-- What a step does to the coroutines: nothing, or it installs one, resumes one or suspends one. -/
inductive Effect (m : Machine) (a : Act) (m' : Machine) : Prop
  | same (hc : m'.sched.taskCoroutineMap = m.sched.taskCoroutineMap)
      (ht : m'.threads = m.threads) (hlog : Quiet m m') (hno : ∀ id, ¬ Installs m m' id)
      (hb : m'.bodies = m.bodies)
      (hcall : ∀ id rest, m.stack = .call id :: rest → id ∈ m.sched.userRemovalTasksSet)
  | install (id : TaskID) (body : BodyID) (hi : Installs m m' id)
      (hc : m'.sched.taskCoroutineMap =
        Function.update m.sched.taskCoroutineMap id (some m.nextThread))
      (ht : m'.threads = Function.update m.threads m.nextThread (some ⟨body, .suspended, false⟩))
      (hlog : Quiet m m') (hb : m'.bodies = m.bodies) (hs : AtCode m.stack)
  | resume (id : TaskID) (th : ThreadID) (rest : List Frame) (t : Thread) (ha : a = .enter)
      (hs : m.stack = .call id :: rest) (hth : m.sched.taskCoroutineMap id = some th)
      (ht₀ : m.threads th = some t) (hsus : t.status = .suspended)
      (hc : m'.sched.taskCoroutineMap = m.sched.taskCoroutineMap)
      (ht : m'.threads = Function.update m.threads th (some { t with status := .active }))
      (hlog : m'.log = .resume id th t.finished :: m.log)
      (hs' : ∃ oldCurr, m'.stack = .body id th oldCurr :: rest)
  | suspend (id : TaskID) (th : ThreadID) (oldCurr : TaskID) (rest : List Frame) (y : Yielded)
      (ha : a = .yield y ∨ y = .noop ∧ a.blocks = true)
      (hs : m.stack = .body id th oldCurr :: rest)
      (hs' : m'.stack = .resumed id th oldCurr y :: rest)
      (hc : m'.sched.taskCoroutineMap = m.sched.taskCoroutineMap)
      (ht : m'.threads = (m.coroYield id th oldCurr rest y).threads) (hlog : Quiet m m')
      (hno : ∀ id, ¬ Installs m m' id)

lemma not_installs_of_log (h : m'.log = m.log) (id : TaskID) : ¬ Installs m m' id :=
  fun ⟨_, h'⟩ => cons_ne_log (h.symm.trans h')

lemma not_installs_of_cons {e : Ev} {log : List Ev} (h : m'.log = e :: log)
    (he : ∀ id th, e ≠ .create id th) (id : TaskID) : ¬ Installs m m' id := by
  rintro ⟨th, h'⟩
  exact he id th (List.cons.inj (h.symm.trans h')).1

lemma AtCode.not_call {rest : List Frame} {stack : List Frame} (h : AtCode stack) :
    stack ≠ .call id :: rest := by
  rintro rfl
  exact h

lemma Rule.effect (hr : Rule m a m') (hf : m'.fault = none) : Effect m a m' := by
  have hne : ∀ {f : Frame} {rest : List Frame}, m.stack = f :: rest → (∀ id, f ≠ .call id) →
      ∀ id rest', m.stack = .call id :: rest' → id ∈ m.sched.userRemovalTasksSet := by
    intro f rest hs hf' id rest' hs'
    cases hs.symm.trans hs'
    exact absurd rfl (hf' id)
  have hcode : AtCode m.stack →
      ∀ id rest', m.stack = .call id :: rest' → id ∈ m.sched.userRemovalTasksSet :=
    fun h _ _ hs' => absurd hs' h.not_call
  have hbodies : ∀ {f : Frame} {rest stack : List Frame}, m.stack = f :: rest →
      stack.filterMap Frame.bodyThread? = (f :: rest).filterMap Frame.bodyThread? →
      stack.filterMap Frame.bodyThread? = m.bodies :=
    fun hs h => h.trans (by rw [Machine.bodies, hs])
  cases hr with
  | fault hf' | removeFault _ hf' | resumeFault _ _ _ _ _ _ _ _ _ hf' => simp [hf] at hf'
  | skip id rest hs _ hset =>
    refine .same (keeps_skip ..).taskCoroutineMap rfl (.cons rfl rfl)
      (not_installs_of_cons rfl (by simp)) (hbodies hs rfl) fun id' rest' hs' => ?_
    cases hs.symm.trans hs'
    exact hset
  | resume id rest cnt th t hs _ _ hc ht hsus =>
    exact .resume id th rest t rfl hs hc ht hsus (keeps_drainPendingRemoval _).taskCoroutineMap
      rfl rfl ⟨_, rfl⟩
  | yieldedLoop id th oldCurr y rest hs | yieldedReturn id th oldCurr y rest hs =>
    refine .same (settle_taskCoroutineMap ..) rfl ?_ ?_ (hbodies hs rfl) (hne hs (by simp))
    · dsimp only [Quiet]
      split_ifs
      · exact ⟨[.finish id th], rfl, by simp [Ev.resumed?]⟩
      · exact ⟨[], rfl, by simp⟩
    · rintro id' ⟨th', h⟩
      dsimp only at h
      split_ifs at h
      · cases h
      · exact cons_ne_log h
  | loopWake _ _ _ _ _ hs =>
    exact .same rfl rfl (.cons rfl rfl) (not_installs_of_cons rfl (by simp)) (hbodies hs rfl)
      (hne hs (by simp))
  | insertWaiter _ _ _ _ _ _ hs =>
    exact .same rfl rfl (.cons rfl rfl) (not_installs_of_cons rfl (by simp)) rfl (hne hs (by simp))
  | loopNext _ _ _ hs | loopTake _ _ _ _ hs | loopClose _ _ hs | pickFired _ _ _ _ _ hs
  | pick _ _ _ _ _ _ hs | passReturn _ _ _ _ _ hs | endPass _ _ _ _ hs =>
    exact .same rfl rfl (.of_eq rfl) (not_installs_of_log rfl) (hbodies hs rfl)
      (hne hs (by simp))
  | awaitPosedge _ _ _ _ hs | awaitNegedge _ _ _ _ hs =>
    exact .same rfl rfl (.of_eq rfl) (not_installs_of_log rfl) rfl (hne hs (by simp))
  | startPass _ hs =>
    exact .same rfl rfl (.of_eq rfl) (not_installs_of_log rfl)
      (show [] = m.bodies by rw [Machine.bodies, hs]; rfl) (by simp [hs])
  | fire _ _ hs | removeEvent _ hs | tryRunning _ hs =>
    exact .same rfl rfl (.of_eq rfl) (not_installs_of_log rfl) rfl (hcode hs)
  | newEventHdl name user e s hs hch =>
    exact .same hch.taskCoroutineMap rfl (.of_eq rfl) (not_installs_of_log rfl) rfl (hcode hs)
  | send e hs =>
    exact .same rfl rfl (.cons rfl rfl) (not_installs_of_cons rfl (by simp)) rfl (hcode hs)
  | remove id hs =>
    exact .same (keeps_flagUserRemoval ..).taskCoroutineMap rfl (.cons rfl rfl)
      (not_installs_of_cons rfl (by simp)) rfl (hcode hs)
  | removeWaiting id e l i w hs =>
    exact .same (keeps_flagUserRemoval ..).taskCoroutineMap rfl
      ⟨[.unwait e w, .remove id (m.sched.checkTaskExists id)], rfl, by simp [Ev.resumed?]⟩
      (not_installs_of_cons rfl (by simp)) rfl (hcode hs)
  | append user id name body startNow s hs hch =>
    refine .install id body ⟨m.nextThread, startTask_log⟩ ?_ startTask_threads.1
      (.cons startTask_log rfl) ?_ hs
    · rw [startTask_threads.2]
      simp only [Machine.installTask, Machine.coroCreate]
      rw [(keeps_clearUserRemoval s id).taskCoroutineMap, hch.taskCoroutineMap]
    · rcases startTask_stack (Machine.installTask { m with sched := s } id name body)
        id startNow with heq | heq <;> (rw [Machine.bodies, heq]; rfl)
  | restart _ id name body s hs hcl =>
    exact .install id body ⟨m.nextThread, rfl⟩ (congrArg (Function.update · id _)
      hcl.keeps.taskCoroutineMap) rfl (.cons rfl rfl) rfl hs
  | wait e l id th oldCurr rest hs =>
    exact .suspend id th oldCurr rest .noop (.inr ⟨rfl, rfl⟩) hs rfl rfl rfl (.cons rfl rfl)
      (not_installs_of_cons rfl (by simp))
  | awaitCallback always id th oldCurr rest hs =>
    exact .suspend id th oldCurr rest .noop (.inr ⟨rfl, rfl⟩) hs rfl rfl rfl (.of_eq rfl)
      (not_installs_of_log rfl)
  | yield y id th oldCurr rest hs =>
    exact .suspend id th oldCurr rest y (.inl rfl) hs rfl rfl rfl (.of_eq rfl)
      (not_installs_of_log rfl)

lemma Effect.of_installs (h : Effect m a m') (hi : Installs m m' id) :
    (m'.sched.taskCoroutineMap =
        Function.update m.sched.taskCoroutineMap id (some m.nextThread)) ∧
      (∃ body, m'.threads =
        Function.update m.threads m.nextThread (some ⟨body, .suspended, false⟩)) ∧
      Quiet m m' ∧ AtCode m.stack := by
  cases h with
  | same _ _ _ hno | suspend _ _ _ _ _ _ _ _ _ _ _ hno => exact absurd hi (hno id)
  | install id₀ body hi₀ hc ht hlog _ hs =>
    obtain ⟨_, hl⟩ := hi
    obtain ⟨_, hl₀⟩ := hi₀
    cases hl.symm.trans hl₀
    exact ⟨hc, ⟨body, ht⟩, hlog, hs⟩
  | resume _ _ _ _ _ _ _ _ _ _ _ hlog =>
    obtain ⟨_, hl⟩ := hi
    cases hl.symm.trans hlog

/-! ### Ids that are chosen automatically -/

lemma coroutine_ne_none_of_reach (h : m.sched.taskCoroutineMap id ≠ none)
    (hrun : Reach Machine.step ok m m') :
    m'.fault = none → m'.sched.taskCoroutineMap id ≠ none := by
  refine hrun.invariant (I := fun m' => m'.fault = none → m'.sched.taskCoroutineMap id ≠ none)
    (fun _ => h) ?_
  intro m₁ a m₂ _ ih _ hs hf
  obtain ⟨hm, hr⟩ := Rule.of_step hs
  by_cases hi : Installs m₁ m₂ id
  · rw [((hr.effect hf).of_installs hi).1, Function.update_self]
    exact Option.some_ne_none _
  · rw [hr.coroutine_eq hf hi]
    exact ih hm

/-- An id that a task has had, chosen by the scheduler or given by the user, is never chosen by the
scheduler again, whether that task has finished, was removed or was started again. -/
theorem not_chosen_again {m₁ m₂ m₃ : Machine} {name : String} {body : BodyID} {startNow : Bool}
    (h : Machine.Reached mode ok m) (hok : ok m a) (hs : m.step a = some m₁) (hf₁ : m₁.fault = none)
    (hi : Installs m m₁ id) (hrun : Reach Machine.step ok m₁ m₂)
    (hs₂ : m₂.step (.appendTask none name body startNow) = some m₃) (hf : m₃.fault = none) :
    ¬ Installs m₂ m₃ id := by
  obtain ⟨-, hr⟩ := Rule.of_step hs
  obtain ⟨hm₂, hr₂⟩ := Rule.of_step hs₂
  have hthread : m₁.sched.taskCoroutineMap id ≠ none := by
    rw [((hr.effect hf₁).of_installs hi).1, Function.update_self]
    exact Option.some_ne_none _
  have hnever := coroutine_ne_none_of_reach hthread hrun hm₂
  have hreg := registered_of_reached ((h.tail hok hs).trans hrun) hm₂
  intro hi₂
  rcases hr₂.installs hf hi₂ with ⟨user, _, _, _, s, hch, ha, -⟩ | ⟨_, _, s, hcl, -⟩
  · cases ha
    cases hch with
    | fresh _ _ halloc =>
      refine (hreg.coroutine id).mpr (Option.ne_none_iff_isSome.mp hnever) ?_
      exact (Scheduler.allocTaskId_eq_some halloc).1
  · cases hcl

/-- `A` returns; then the first id is free in every table but the archive. -/
theorem not_chosen_again_returned : ∃ m₁ m₂ m₃,
    (Machine.init .normal).step (.appendTask none "A" 0 true) = some m₁ ∧
    run Machine.step m₁ [.enter, .yield .returned, .yielded] = some m₂ ∧
    m₂.step (.appendTask none "B" 1 false) = some m₃ ∧ ¬ Installs m₂ m₃ 1 := by
  have hrun : (((Machine.init .normal).step (.appendTask none "A" 0 true)).bind fun m₁ =>
      (run Machine.step m₁ [.enter, .yield .returned, .yielded]).bind fun m₂ =>
        (m₂.step (.appendTask none "B" 1 false)).map fun m₃ =>
          decide (m₁.fault = none ∧ m₁.log = [.create 1 0] ∧ m₃.fault = none)) = some true := by
    decide +kernel
  obtain ⟨m₁, hm₁, hrun⟩ := Option.bind_eq_some_iff.mp hrun
  obtain ⟨m₂, hm₂, hrun⟩ := Option.bind_eq_some_iff.mp hrun
  obtain ⟨m₃, hm₃, hrun⟩ := Option.map_eq_some_iff.mp hrun
  obtain ⟨hf₁, hlog, hf₃⟩ := of_decide_eq_true hrun
  exact ⟨m₁, m₂, m₃, hm₁, hm₂, hm₃, not_chosen_again .refl trivial hm₁ hf₁ ⟨0, hlog⟩
    (reach_of_run hm₂) hm₃ hf₃⟩

/-! ### What a step does to one coroutine -/

lemma Rule.left {oldCurr : TaskID} {y : Yielded} {rest : List Frame} (hr : Rule m a m')
    (hshape : Shaped m.stack) (hf : m'.fault = none)
    (hs' : m'.stack = .resumed id th oldCurr y :: rest) :
    m.stack = .body id th oldCurr :: rest ∧ (a = .yield y ∨ y = .noop) := by
  have hnested : ∀ {stack : List Frame}, Nested stack →
      stack ≠ .resumed id th oldCurr y :: rest := by
    rintro _ h rfl
    exact h
  have hcode : AtCode m.stack → m.stack ≠ .resumed id th oldCurr y :: rest :=
    fun h => hnested (hshape.nested_of_atCode h)
  cases hr with
  | fault hf' | removeFault _ hf' | resumeFault _ _ _ _ _ _ _ _ _ hf' => simp [hf] at hf'
  | skip _ rest₀ hs | yieldedReturn _ _ _ _ rest₀ hs | loopClose _ rest₀ hs =>
    rw [hs] at hshape
    have hn : Nested rest₀ := hshape
    exact absurd hs' (hnested hn)
  | endPass _ _ _ _ hs =>
    rw [hs] at hshape
    cases hshape.pass_bottom
    cases hs'
  | append user id₀ name body startNow s hs =>
    rcases startTask_stack (Machine.installTask { m with sched := s } id₀ name body)
      id₀ startNow with heq | heq
    · exact absurd (heq.symm.trans hs') (hcode hs)
    · cases heq.symm.trans hs'
  | newEventHdl _ _ _ _ hs | removeEvent _ hs | send _ hs | tryRunning _ hs | remove _ hs
  | removeWaiting _ _ _ _ _ hs => exact absurd hs' (hcode hs)
  | insertWaiter _ _ _ _ _ _ hs | awaitPosedge _ _ _ _ hs | awaitNegedge _ _ _ _ hs =>
    cases hs.symm.trans hs'
  | wait _ _ _ _ _ _ hs | awaitCallback _ _ _ _ _ hs =>
    cases hs'
    exact ⟨hs, .inr rfl⟩
  | yield _ _ _ _ _ hs =>
    cases hs'
    exact ⟨hs, .inl rfl⟩
  | resume | yieldedLoop | loopWake | loopNext | loopTake | startPass | pickFired | pick
  | passReturn | fire | restart => cases hs'

/-! ### Tasks that nobody removes and that wait for no event -/

/-- What the steps of such tasks do not do. -/
structure Machine.Plain (m : Machine) (a : Act) : Prop where
  waits : ∀ e, a ≠ .wait e ∧ a ≠ .insertWaiter e
  yields : a ≠ .yield .unknown
  removes : ∀ id, a = .removeTask id → id ∉ m.sched.taskNameMapRunning
  sends : ∀ e, a = .send e → e ∈ m.sched.eventTaskIdListMap
  resumes : ∀ id rest th t, a = .enter → m.stack = .call id :: rest →
    m.sched.taskCoroutineMap id = some th → m.threads th = some t → t.finished = false
  fires : ∀ n cb, a = .fire n → m.callbacks[n]? = some cb →
    ∃ th, m.sched.taskCoroutineMap cb.taskId = some th ∧ m.Started th

structure Tidy (m : Machine) : Prop where
  flags : m.sched.userRemovalTasksSet = ∅
  /-- A task whose coroutine has not finished runs, and no drain will take it out. -/
  running : ∀ id th t, m.sched.taskCoroutineMap id = some th → m.threads th = some t →
    t.finished = false ∨ Leaving m id th →
    id ∈ m.sched.taskNameMapRunning ∧ id ∉ m.sched.pendingRemovalTasks
  pending : ∀ id ∈ m.sched.pendingRemovalTasks, id ∈ m.sched.taskNameMapRunning
  installed : ∀ id ∈ m.sched.taskNameMapRunning, (m.sched.taskCoroutineMap id).isSome
  nodup : m.sched.pendingRemovalTasks.Nodup
  /-- A body that runs is that of the coroutine of its task, which has not finished. -/
  current : ∀ th ∈ m.bodies, ∃ id t, m.sched.taskCoroutineMap id = some th ∧
    m.threads th = some t ∧ t.finished = false ∧ m.Started th
  waiters : ∀ e w, w ∉ m.bus.tokens e
  sent : ∀ e ∈ m.sched.pendingWakeupEvent, e ∈ m.sched.eventTaskIdListMap
  left : ∀ id th oldCurr y rest, m.stack = .resumed id th oldCurr y :: rest →
    y ≠ .unknown ∧ m.sched.taskCoroutineMap id = some th
  fired : ∀ id th, m.sched.taskCoroutineMap id = some th → m.Started th → m.Fired id
  called : ∀ id rest, m.stack = .call id :: rest → m.Fired id
  fresh : ∀ th t, m.threads th = some t → ¬ m.Started th →
    t.status = .suspended ∧ t.finished = false
  known : ∀ th, m.Started th → (m.threads th).isSome
  active : ∀ th t, m.threads th = some t → t.status ≠ .suspended →
    t.finished = true ∨ th ∈ m.bodies

section Tidy

lemma Tidy.coroutine_of_body {oldCurr : TaskID} {rest : List Frame} (h : Tidy m)
    (hc : Coroutines m) (hs : m.stack = .body id th oldCurr :: rest) :
    m.sched.taskCoroutineMap id = some th ∧
      ∃ t, m.threads th = some t ∧ t.finished = false ∧ m.Started th := by
  have hbody : th ∈ m.bodies := by simp [Machine.bodies, hs, Frame.bodyThread?]
  obtain ⟨id', t, hth, ht, hfin, hstart⟩ := h.current th hbody
  have hrun : (id, th) ∈ m.runs := by
    rw [Machine.runs, hs]
    exact List.mem_cons_self
  obtain rfl := (hc.runs _ hrun).2 id' hth
  exact ⟨hth, t, ht, hfin, hstart⟩

lemma Rule.flags_empty (hr : Rule m a m') (hf : m'.fault = none)
    (h : m.sched.userRemovalTasksSet = ∅)
    (hok : ∀ id, a = .removeTask id → id ∉ m.sched.taskNameMapRunning) :
    m'.sched.userRemovalTasksSet = ∅ := by
  have hremove : ∀ id, a = .removeTask id →
      (m.sched.flagUserRemoval id).userRemovalTasksSet = ∅ := by
    intro id ha
    unfold Scheduler.flagUserRemoval
    rw [if_neg (hok id ha), h]
  cases hr with
  | fault hf' | removeFault _ hf' | resumeFault _ _ _ _ _ _ _ _ _ hf' => simp [hf] at hf'
  | skip id rest hs _ hset => simp [h] at hset
  | resume => simpa using h
  | yieldedLoop | yieldedReturn => simpa using h
  | append user id name body startNow s hs hch =>
    rw [installTask_flags, hch.running.2.1, h]
    rfl
  | restart _ id name body s hs hcl =>
    show s.userRemovalTasksSet = ∅
    cases hcl with
    | notRunning | pending => exact h
    | flagged | tried => simp [h]
  | newEventHdl name user e s hs hch => exact hch.running.2.1.trans h
  | remove id | removeWaiting id => exact hremove id rfl
  | _ => exact h

lemma Tidy.finished_of_installs {t : Thread} (h : Tidy m) (hreg : m.sched.Registered)
    (hr : Rule m a m') (hf : m'.fault = none) (hi : Installs m m' id)
    (hth : m.sched.taskCoroutineMap id = some th) (ht : m.threads th = some t) :
    t.finished = true := by
  by_contra hfin
  obtain ⟨hrun, hpend⟩ := h.running id th t hth ht (.inl (by simpa using hfin))
  rcases hr.installs hf hi with ⟨user, name, body, startNow, s, hch, -⟩ | ⟨name, body, s, hcl, -⟩
  · cases hch with
    | given _ _ hflag => simpa [h.flags] using hflag hrun
    | fresh _ _ halloc =>
      refine (hreg.coroutine id).mpr (by rw [hth]; rfl) ?_
      exact (Scheduler.allocTaskId_eq_some halloc).1
  · cases hcl with
    | notRunning hno => exact hno hrun
    | flagged _ hflag => simp [h.flags] at hflag
    | pending _ _ i hidx =>
      obtain ⟨hlt, hid, -⟩ := List.findIdx?_eq_some_iff_getElem.mp hidx
      rw [decide_eq_true_eq] at hid
      exact hpend (hid ▸ List.getElem_mem hlt)
    | tried hflag => simpa [h.flags] using hflag hrun

lemma Tidy.running_of_installs (h : Tidy m) (hreg : m.sched.Registered)
    (hr : Rule m a m') (hf : m'.fault = none) (hi : Installs m m' id) :
    id ∈ m'.sched.taskNameMapRunning ∧ id ∉ m'.sched.pendingRemovalTasks := by
  rcases hr.installs hf hi with
    ⟨user, name, body, startNow, s, hch, -, rfl⟩ | ⟨name, body, s, hcl, rfl⟩
  · refine ⟨mem_installTask_running.mpr (.inl rfl), ?_⟩
    rw [installTask_pending, hch.running.2.2]
    intro hpend
    have hrun := h.pending id hpend
    cases hch with
    | given _ _ hflag => simpa [h.flags] using hflag hrun
    | fresh _ _ halloc =>
      exact (hreg.coroutine id).mpr (h.installed id hrun) (Scheduler.allocTaskId_eq_some halloc).1
  · refine ⟨Finmap.mem_insert.mpr (.inl rfl), ?_⟩
    show id ∉ s.pendingRemovalTasks
    cases hcl with
    | notRunning hno => exact fun hpend => hno (h.pending id hpend)
    | flagged _ hflag => simp [h.flags] at hflag
    | pending _ _ i hidx =>
      obtain ⟨hlt, hid, -⟩ := List.findIdx?_eq_some_iff_getElem.mp hidx
      rw [decide_eq_true_eq] at hid
      refine notMem_eraseIdx_of_count ?_ (List.nodup_iff_count_le_one.mp h.nodup id)
      rw [List.getElem?_eq_getElem hlt, hid]
    | tried hflag =>
      rw [clearUserRemoval_pending]
      exact fun hpend => by simpa [h.flags] using hflag (h.pending id hpend)

lemma Effect.of_left {oldCurr : TaskID} {y : Yielded} {rest : List Frame} (h : Effect m a m')
    (hs : m.stack = .body id th oldCurr :: rest)
    (hs' : m'.stack = .resumed id th oldCurr y :: rest) :
    m'.sched.taskCoroutineMap = m.sched.taskCoroutineMap ∧
      m'.threads = (m.coroYield id th oldCurr rest y).threads := by
  have hlen : m'.bodies ≠ m.bodies := by
    rw [Machine.bodies, Machine.bodies, hs, hs']
    exact fun heq => List.cons_ne_self _ _ heq.symm
  cases h with
  | same _ _ _ _ hb | install _ _ _ _ _ _ hb => exact absurd hb hlen
  | resume _ _ _ _ _ hs₀ => cases hs.symm.trans hs₀
  | suspend _ _ _ _ _ _ hs₀ hs₁ hc ht =>
    cases hs.symm.trans hs₀
    cases hs'.symm.trans hs₁
    exact ⟨hc, ht⟩

variable {ok : Machine → Act → Prop} (h : Tidy m) (hm : Machine.Reached .normal ok m)
  (hok : m.Plain a) (hstep : m.step a = some m') (hf : m'.fault = none)

include h hm hstep hf in
lemma Tidy.unfinished {t' : Thread} (hno : ¬ Installs m m' id)
    (hth : m'.sched.taskCoroutineMap id = some th) (ht : m'.threads th = some t')
    (hcond : t'.finished = false ∨ Leaving m' id th) :
    ∃ t, m.sched.taskCoroutineMap id = some th ∧ m.threads th = some t ∧ t.finished = false := by
  obtain ⟨hf₀, hr⟩ := Rule.of_step hstep
  have hc := coroutines_of_reached hm hf₀
  rw [hr.coroutine_eq hf hno] at hth
  obtain ⟨t, ht₀⟩ := Option.isSome_iff_exists.mp (hc.thread id th hth)
  refine ⟨t, hth, ht₀, ?_⟩
  rcases hcond with hfin | ⟨oldCurr, y, rest, hs', hy⟩
  · by_contra hfin₀
    obtain ⟨t₁, ht₁, hfin₁⟩ := hr.thread_finished hc hf ht₀ (by simpa using hfin₀)
    cases ht.symm.trans ht₁
    simp [hfin] at hfin₁
  · obtain ⟨hs, -⟩ := hr.left (shaped_of_reached hm hf₀) hf hs'
    obtain ⟨-, t₁, ht₁, hfin₁, -⟩ := h.coroutine_of_body hc hs
    cases ht₀.symm.trans ht₁
    exact hfin₁

include h hm hstep hf in
lemma Tidy.running_step {t' : Thread} (hth : m'.sched.taskCoroutineMap id = some th)
    (ht : m'.threads th = some t') (hcond : t'.finished = false ∨ Leaving m' id th) :
    id ∈ m'.sched.taskNameMapRunning ∧ id ∉ m'.sched.pendingRemovalTasks := by
  obtain ⟨hf₀, hr⟩ := Rule.of_step hstep
  by_cases hi : Installs m m' id
  · exact h.running_of_installs (registered_of_reached hm hf₀) hr hf hi
  obtain ⟨t, hth₀, ht₀, hfin⟩ := h.unfinished hm hstep hf hi hth ht hcond
  obtain ⟨hrun, hpend⟩ := h.running id th t hth₀ ht₀ (.inl hfin)
  have hcount := counted_of_reached hm hf₀
  refine ⟨hr.running_of hcount hf hrun hpend (by simp [h.flags]), fun hmem => ?_⟩
  rcases hr.pending hcount hf hmem with hmem | ⟨-, th₀, hleave⟩
  · exact hpend hmem
  · obtain ⟨t₀, ht₀', hfin₀⟩ := leavingFinished_of_reached hm hf₀ id th₀ hleave
    obtain ⟨oldCurr, y, rest, hs, -⟩ := hleave
    cases hth₀.symm.trans (h.left _ _ _ _ _ hs).2
    cases ht₀.symm.trans ht₀'
    simp [hfin] at hfin₀

include h hm hstep hf in
lemma Tidy.pending_step :
    (∀ id ∈ m'.sched.pendingRemovalTasks, id ∈ m'.sched.taskNameMapRunning) ∧
      m'.sched.pendingRemovalTasks.Nodup := by
  obtain ⟨hf₀, hr⟩ := Rule.of_step hstep
  have hcount := counted_of_reached hm hf₀
  have hsettle : ∀ {id₀ th₀ oldCurr y rest}, m.stack = .resumed id₀ th₀ oldCurr y :: rest →
      (∀ id ∈ (m.sched.settle m.mode id₀ oldCurr y).pendingRemovalTasks,
        id ∈ (m.sched.settle m.mode id₀ oldCurr y).taskNameMapRunning) ∧
      (m.sched.settle m.mode id₀ oldCurr y).pendingRemovalTasks.Nodup := by
    intro id₀ th₀ oldCurr y rest hs
    rw [settle_pending, settle_running]
    split_ifs with hy
    · obtain ⟨-, hth₀⟩ := h.left _ _ _ _ _ hs
      obtain ⟨t, ht⟩ := Option.isSome_iff_exists.mp ((coroutines_of_reached hm hf₀).thread _ _ hth₀)
      obtain ⟨hrun, hpend⟩ := h.running id₀ th₀ t hth₀ ht (.inr ⟨oldCurr, y, rest, hs, hy⟩)
      refine ⟨fun id hmem => ?_, List.Nodup.append h.nodup (List.nodup_singleton _) ?_⟩
      · rcases List.mem_append.mp hmem with hmem | hmem
        · exact h.pending id hmem
        · exact List.mem_singleton.mp hmem ▸ hrun
      · exact List.disjoint_singleton.mpr hpend
    · exact ⟨h.pending, h.nodup⟩
  cases hr with
  | fault hf' | removeFault _ hf' | resumeFault _ _ _ _ _ _ _ _ _ hf' => simp [hf] at hf'
  | skip => simp [Scheduler.unregister, hcount.drain_pending]
  | resume => simp [hcount.drain_pending]
  | yieldedLoop _ _ _ _ _ hs | yieldedReturn _ _ _ _ _ hs => exact hsettle hs
  | append user id₀ name body startNow s hs hch =>
    rw [installTask_pending, hch.running.2.2]
    exact ⟨fun id hmem => mem_installTask_running.mpr
      (.inr (hch.running.1.symm ▸ h.pending id hmem)), h.nodup⟩
  | restart _ id₀ name body s hs hcl =>
    have hsub : s.pendingRemovalTasks.Sublist m.sched.pendingRemovalTasks := by
      cases hcl with
      | notRunning => exact .refl _
      | flagged | tried => rw [clearUserRemoval_pending]
      | pending => exact List.eraseIdx_sublist _ _
    exact ⟨fun id hmem => Finmap.mem_insert.mpr
      (.inr (hcl.running.symm ▸ h.pending id (hsub.subset hmem))), h.nodup.sublist hsub⟩
  | newEventHdl name user e s hs hch =>
    obtain ⟨hrun, -, hpend⟩ := hch.running
    exact ⟨fun id hmem => hrun.symm ▸ h.pending id (hpend ▸ hmem), hpend.symm ▸ h.nodup⟩
  | remove | removeWaiting =>
    simp only [flagUserRemoval_running, flagUserRemoval_pending]
    exact ⟨h.pending, h.nodup⟩
  | _ => exact ⟨h.pending, h.nodup⟩

include h hm hstep hf in
lemma Tidy.installed_step (hrun : id ∈ m'.sched.taskNameMapRunning) :
    (m'.sched.taskCoroutineMap id).isSome := by
  obtain ⟨hf₀, hr⟩ := Rule.of_step hstep
  rcases hr.mem_running (counted_of_reached hm hf₀) hf hrun with hold | hi
  · exact hr.coroutine_isSome hf (h.installed id hold)
  · rw [((hr.effect hf).of_installs hi).1, Function.update_self]
    rfl

include h hstep hf in
lemma Tidy.known_step (hstart : m'.Started th) : (m'.threads th).isSome := by
  obtain ⟨hf₀, hr⟩ := Rule.of_step hstep
  refine hr.threads_isSome hf ?_
  cases hr.effect hf with
  | same _ _ hlog | install _ _ _ _ _ hlog | suspend _ _ _ _ _ _ _ _ _ _ hlog =>
    exact h.known th (hlog.started.mp hstart)
  | resume id₀ th₀ rest t ha hs hth ht₀ _ _ _ hlog =>
    rcases (started_cons hlog).mp hstart with rfl | hold
    · simp [ht₀]
    · exact h.known th hold

include h hm in
lemma Tidy.not_started_nextThread (hf₀ : m.fault = none) : ¬ m.Started m.nextThread := fun hstart =>
  absurd ((coroutines_of_reached hm hf₀).bound _ (h.known _ hstart)) (Nat.lt_irrefl _)

include h hstep hf in
lemma Tidy.fresh_step {t' : Thread} (ht : m'.threads th = some t') (hno : ¬ m'.Started th) :
    t'.status = .suspended ∧ t'.finished = false := by
  obtain ⟨hf₀, hr⟩ := Rule.of_step hstep
  cases hr.effect hf with
  | same _ ht₀ hlog => exact h.fresh th t' (ht₀ ▸ ht) fun hold => hno (hlog.started.mpr hold)
  | install _ _ _ _ ht₀ hlog =>
    rw [ht₀] at ht
    by_cases heq : th = m.nextThread
    · subst heq
      cases (Function.update_self ..).symm.trans ht
      exact ⟨rfl, rfl⟩
    · rw [Function.update_of_ne heq] at ht
      exact h.fresh th t' ht fun hold => hno (hlog.started.mpr hold)
  | resume id₀ th₀ rest t ha hs hth ht₀ hsus _ ht₁ hlog =>
    have hne : th ≠ th₀ := fun heq => hno ((started_cons hlog).mpr (.inl heq))
    rw [ht₁, Function.update_of_ne hne] at ht
    exact h.fresh th t' ht fun hold => hno ((started_cons hlog).mpr (.inr hold))
  | suspend id₀ th₀ oldCurr rest y _ hs _ _ ht₁ hlog =>
    have hno₀ : ¬ m.Started th := fun hold => hno (hlog.started.mpr hold)
    have hne : th ≠ th₀ := by
      rintro rfl
      obtain ⟨_, _, _, _, _, hstart⟩ :=
        h.current th (by simp [Machine.bodies, hs, Frame.bodyThread?])
      exact hno₀ hstart
    simp only [ht₁, Machine.coroYield, Function.update_of_ne hne] at ht
    exact h.fresh th t' ht hno₀

include h hstep hf in
lemma Tidy.active_step {t' : Thread} (ht : m'.threads th = some t')
    (hsus : t'.status ≠ .suspended) : t'.finished = true ∨ th ∈ m'.bodies := by
  obtain ⟨hf₀, hr⟩ := Rule.of_step hstep
  cases hr.effect hf with
  | same _ ht₀ _ _ hb => exact hb ▸ h.active th t' (ht₀ ▸ ht) hsus
  | install _ _ _ _ ht₀ _ hb =>
    rw [ht₀] at ht
    by_cases heq : th = m.nextThread
    · subst heq
      cases (Function.update_self ..).symm.trans ht
      exact absurd rfl hsus
    · rw [Function.update_of_ne heq] at ht
      exact hb ▸ h.active th t' ht hsus
  | resume id₀ th₀ rest t _ hs _ _ _ _ ht₁ _ hs' =>
    obtain ⟨oldCurr, hs'⟩ := hs'
    have hb : m'.bodies = th₀ :: m.bodies := by
      rw [Machine.bodies, Machine.bodies, hs', hs]
      rfl
    rw [hb]
    by_cases heq : th = th₀
    · exact .inr (heq ▸ List.mem_cons_self)
    · rw [ht₁, Function.update_of_ne heq] at ht
      exact (h.active th t' ht hsus).imp_right (List.mem_cons_of_mem _)
  | suspend id₀ th₀ oldCurr rest y _ hs hs' _ ht₁ =>
    have hb : m.bodies = th₀ :: m'.bodies := by
      rw [Machine.bodies, Machine.bodies, hs', hs]
      rfl
    by_cases heq : th = th₀
    · subst heq
      simp only [ht₁, Machine.coroYield, Function.update_self, Option.map_eq_some_iff] at ht
      obtain ⟨t₀, _, rfl⟩ := ht
      cases y with
      | returned => simp [Yielded.finishes]
      | earlyExit | noop | unknown => exact absurd rfl hsus
    · simp only [ht₁, Machine.coroYield, Function.update_of_ne heq] at ht
      refine (h.active th t' ht hsus).imp_right fun hmem => ?_
      exact (List.mem_cons.mp (hb ▸ hmem)).resolve_left heq

include h hm hok hstep hf in
lemma Tidy.current_step (hbody : th ∈ m'.bodies) : ∃ id t,
    m'.sched.taskCoroutineMap id = some th ∧ m'.threads th = some t ∧ t.finished = false ∧
      m'.Started th := by
  obtain ⟨hf₀, hr⟩ := Rule.of_step hstep
  have hc := coroutines_of_reached hm hf₀
  rcases hr.mem_bodies hf hbody with hold | ⟨rfl, id, b, hlog⟩
  · obtain ⟨id, t, hth, ht, hfin, hstart⟩ := h.current th hold
    have hno : ¬ Installs m m' id := fun hi => by
      have := h.finished_of_installs (registered_of_reached hm hf₀) hr hf hi hth ht
      simp [hfin] at this
    have hth' := (hr.coroutine_eq hf hno).trans hth
    cases hr.effect hf with
    | same _ ht₀ hlog => exact ⟨id, t, hth', ht₀ ▸ ht, hfin, hlog.started.mpr hstart⟩
    | install _ _ _ _ ht₀ hlog =>
      have hne : th ≠ m.nextThread := Nat.ne_of_lt (hc.bound th (by simp [ht]))
      exact ⟨id, t, hth', by rw [ht₀, Function.update_of_ne hne, ht], hfin, hlog.started.mpr hstart⟩
    | resume id₀ th₀ rest t₀ _ _ _ ht₀ hsus _ ht₁ hlog =>
      have hne : th ≠ th₀ := by
        rintro rfl
        obtain ⟨t₁, ht₁, hact⟩ := (bodies_of_reached hm hf₀).active th hold
        cases ht₀.symm.trans ht₁
        rw [hsus] at hact
        cases hact
      exact ⟨id, t, hth', by rw [ht₁, Function.update_of_ne hne, ht], hfin,
        (started_cons hlog).mpr (.inr hstart)⟩
    | suspend id₀ th₀ oldCurr rest y _ hs hs' _ ht₁ hlog =>
      have hne : th ≠ th₀ := by
        rintro rfl
        have hnodup := (bodies_of_reached hm hf₀).nodup
        rw [Machine.bodies, hs] at hnodup
        rw [Machine.bodies, hs'] at hbody
        exact (List.nodup_cons.mp hnodup).1 hbody
      exact ⟨id, t, hth', by simp [ht₁, Machine.coroYield, Function.update_of_ne hne, ht], hfin,
        hlog.started.mpr hstart⟩
  · obtain ⟨rest, hs, hth⟩ := hr.called_of_resume hf hlog
    have hstart : m'.Started th := (started_cons hlog).mpr (.inl rfl)
    cases hr with
    | fault hf' | resumeFault _ _ _ _ _ _ _ _ _ hf' => simp [hf] at hf'
    | skip => cases hlog
    | resume id₀ rest₀ cnt th₀ t hs₀ _ _ hth₀ ht hsus =>
      cases hlog
      refine ⟨id, { t with status := .active }, ?_, Function.update_self .., ?_, hstart⟩
      · exact (congrFun (keeps_drainPendingRemoval _).taskCoroutineMap id).trans hth
      · exact hok.resumes id rest th t rfl hs hth ht
    | restart _ _ _ _ _ _ hcl => cases hcl

include h hm hstep hf in
lemma Tidy.fired_step (hth : m'.sched.taskCoroutineMap id = some th) (hstart : m'.Started th) :
    m'.Fired id := by
  obtain ⟨hf₀, hr⟩ := Rule.of_step hstep
  have hc := coroutines_of_reached hm hf₀
  by_cases hi : Installs m m' id
  · obtain ⟨hc₀, -, hlog, -⟩ := (hr.effect hf).of_installs hi
    rw [hc₀, Function.update_self] at hth
    cases hth
    exact absurd (hlog.started.mp hstart) (h.not_started_nextThread hm hf₀)
  · have hth₀ := (hr.coroutine_eq hf hi).symm.trans hth
    refine hr.fired (shaped_of_reached hm hf₀) hf hi ?_
    cases hr.effect hf with
    | same _ _ hlog | install _ _ _ _ _ hlog | suspend _ _ _ _ _ _ _ _ _ _ hlog =>
      exact h.fired id th hth₀ (hlog.started.mp hstart)
    | resume id₀ th₀ rest t _ hs hc₀ _ _ _ _ hlog =>
      rcases (started_cons hlog).mp hstart with rfl | hold
      · obtain rfl := hc.injective _ _ _ hth₀ hc₀
        exact h.called id rest hs
      · exact h.fired id th hth₀ hold

include h hm hok hstep hf in
lemma Tidy.called_step {rest : List Frame} (hs' : m'.stack = .call id :: rest) : m'.Fired id := by
  obtain ⟨hf₀, hr⟩ := Rule.of_step hstep
  have hshape := shaped_of_reached hm hf₀
  cases hr.called hshape hf hs' with
  | fire n cb ha hcb hid =>
    subst ha hid
    obtain ⟨th, hth, hstart⟩ := hok.fires n cb rfl hcb
    refine hr.fired hshape hf (fun hi => ?_) (h.fired _ th hth hstart)
    exact absurd (hr.starts hf hi) (by simp [Act.starts])
  | wake e w ha hw => exact absurd (mem_tokens_of_answers hw) (h.waiters e w)
  | pick kind start visited rest₀ ha =>
    subst ha
    exact fired_of_pick hstep hf (mode_of_reached hm hf₀) (passes_all_of_reached hm hf₀) hs'
  | start hi => exact hr.fired_of_installs hf hshape hi hs'

include h hm hstep hf in
lemma Tidy.left_step {oldCurr : TaskID} {y : Yielded} {rest : List Frame} (hok : m.Plain a)
    (hs' : m'.stack = .resumed id th oldCurr y :: rest) :
    y ≠ .unknown ∧ m'.sched.taskCoroutineMap id = some th := by
  obtain ⟨hf₀, hr⟩ := Rule.of_step hstep
  obtain ⟨hs, ha⟩ := hr.left (shaped_of_reached hm hf₀) hf hs'
  refine ⟨?_, ?_⟩
  · rintro rfl
    rcases ha with rfl | h
    · exact hok.yields rfl
    · cases h
  · rw [((hr.effect hf).of_left hs hs').1]
    exact (h.coroutine_of_body (coroutines_of_reached hm hf₀) hs).1

include h hok hstep hf in
lemma Tidy.sent_step : ∀ e ∈ m'.sched.pendingWakeupEvent, e ∈ m'.sched.eventTaskIdListMap := by
  have hkeep : ∀ {s : Scheduler}, s.eventTables = m.sched.eventTables →
      ∀ e ∈ s.pendingWakeupEvent, e ∈ s.eventTaskIdListMap := by
    intro s hs e he
    have hp := congrArg EventTables.pendingWakeupEvent hs
    have hl := congrArg EventTables.eventTaskIdListMap hs
    exact (show s.eventTaskIdListMap = m.sched.eventTaskIdListMap from hl) ▸ h.sent e
      ((show s.pendingWakeupEvent = m.sched.pendingWakeupEvent from hp) ▸ he)
  obtain ⟨hf₀, hr⟩ := Rule.of_step hstep
  cases hr with
  | fault hf' | removeFault _ hf' | resumeFault _ _ _ _ _ _ _ _ _ hf' => simp [hf] at hf'
  | skip => exact hkeep (keeps_skip ..).eventTables
  | resume => exact hkeep (keeps_drainPendingRemoval _).eventTables
  | yieldedLoop _ _ _ _ _ hs | yieldedReturn _ _ _ _ _ hs =>
    exact hkeep (s := m.sched.settle ..) (settle_eventTables ..)
  | loopTake next e l rest hs he hl =>
    exact fun e' he' => Finmap.mem_insert.mpr (.inr (h.sent e' he'))
  | loopClose => simp
  | newEventHdl name user e s hs hch =>
    have hs' : s.pendingWakeupEvent = m.sched.pendingWakeupEvent ∧
        s.eventTaskIdListMap = m.sched.eventTaskIdListMap := by
      cases hch with
      | given => exact ⟨rfl, rfl⟩
      | fresh _ _ h' =>
        obtain ⟨-, -, -, rfl⟩ := Scheduler.allocEventId_eq_some h'
        exact ⟨rfl, rfl⟩
    intro e' he'
    refine Finmap.mem_insert.mpr (.inr (hs'.2 ▸ h.sent e' ?_))
    exact hs'.1 ▸ he'
  | send e =>
    intro e' he'
    rcases List.mem_append.mp he' with he' | he'
    · exact h.sent e' he'
    · rw [List.mem_singleton.mp he']
      exact hok.sends e rfl
  | append user id₀ name body startNow s hs hch =>
    refine hkeep (s := (Machine.startTask _ id₀ startNow).sched) ?_
    unfold Machine.startTask
    split_ifs <;> exact (keeps_clearUserRemoval s id₀).eventTables.trans hch.eventTables
  | restart _ id₀ name body s hs hcl => exact hkeep hcl.keeps.eventTables
  | remove id₀ => exact hkeep (keeps_flagUserRemoval ..).eventTables
  | removeWaiting id₀ e l i w hs he hl =>
    have ht := (keeps_flagUserRemoval m.sched id₀).eventTables
    have hp : (m.sched.flagUserRemoval id₀).pendingWakeupEvent = m.sched.pendingWakeupEvent :=
      congrArg EventTables.pendingWakeupEvent ht
    exact fun e' he' => Finmap.mem_insert.mpr (.inr (h.sent e' (hp ▸ he')))
  | wait e => exact absurd rfl (hok.waits e).1
  | insertWaiter e => exact absurd rfl (hok.waits e).2
  | _ => exact h.sent

include h hm hok hstep hf in
lemma Tidy.step : Tidy m' := by
  obtain ⟨hf₀, hr⟩ := Rule.of_step hstep
  exact
    { flags := hr.flags_empty hf h.flags hok.removes
      running := fun _ _ _ => h.running_step hm hstep hf
      pending := (h.pending_step hm hstep hf).1
      installed := fun _ => h.installed_step hm hstep hf
      nodup := (h.pending_step hm hstep hf).2
      current := fun _ => h.current_step hm hok hstep hf
      waiters := fun e w hw => by
        rcases hr.mem_tokens (flagDown_of_reached hm hf₀) hf hw with hold | ⟨ha | ha, -⟩
        · exact h.waiters e w hold
        · exact (hok.waits e).1 ha
        · exact (hok.waits e).2 ha
      sent := h.sent_step hok hstep hf
      left := fun _ _ _ _ _ => h.left_step hm hstep hf hok
      fired := fun _ _ => h.fired_step hm hstep hf
      called := fun _ _ => h.called_step hm hok hstep hf
      fresh := fun _ _ => h.fresh_step hstep hf
      known := fun _ => h.known_step hstep hf
      active := fun _ _ => h.active_step hstep hf }

end Tidy

lemma tidy_init : Tidy (Machine.init .normal) := by
  constructor <;> simp [Machine.init, Scheduler.init, Machine.bodies, Machine.Started, Machine.bus,
    EventBus.Bus.tokens, EventTables.waiting, Scheduler.eventTables, Finmap.notMem_empty]

lemma Tidy.called_fresh {rest : List Frame} {ok : Machine → Act → Prop} (h : Tidy m)
    (hm : Machine.Reached .normal ok m) (hstep : m.step a = some m') (hf : m'.fault = none)
    (ha : ∀ n, a ≠ .fire n) (hs' : m'.stack = .call id :: rest) :
    ∃ th, m'.sched.taskCoroutineMap id = some th ∧ ¬ m'.Started th := by
  obtain ⟨hf₀, hr⟩ := Rule.of_step hstep
  have hshape := shaped_of_reached hm hf₀
  cases hr.called hshape hf hs' with
  | fire n _ ha' => exact absurd ha' (ha n)
  | wake e w _ hw => exact absurd (mem_tokens_of_answers hw) (h.waiters e w)
  | pick kind start visited rest₀ ha' hs hk hfired =>
    subst ha'
    obtain rfl := passes_all_of_reached hm hf₀ kind ⟨_, _, _, hs ▸ List.mem_cons_self⟩
    obtain ⟨th, hth⟩ := Option.isSome_iff_exists.mp (h.installed id (Finmap.mem_keys.mp hk))
    have hno : ¬ Installs m m' id := fun hi => absurd (hr.starts hf hi) (by simp [Act.starts])
    refine ⟨th, (hr.coroutine_eq hf hno).trans hth, fun hstart => ?_⟩
    have hold : m.Started th := by
      cases hr.effect hf with
      | same _ _ hlog | suspend _ _ _ _ _ _ _ _ _ _ hlog => exact hlog.started.mp hstart
      | install _ _ _ _ _ hlog => exact hlog.started.mp hstart
      | resume _ _ _ _ ha' => cases ha'
    rcases h.fired id th hth hold (Finmap.mem_keys.mp hk) with htrue | ⟨_, _, _, hmem⟩
    · rw [hfired rfl (mode_of_reached hm hf₀)] at htrue
      cases htrue
    · cases hshape.pass_ret hs hmem
  | start hi =>
    obtain ⟨hc, -, hlog, -⟩ := (hr.effect hf).of_installs hi
    refine ⟨m.nextThread, by rw [hc, Function.update_self], fun hstart => ?_⟩
    exact h.not_started_nextThread hm hf₀ (hlog.started.mp hstart)

lemma stack_of_yielded (hstep : m.step .yielded = some m') : ∃ id th oldCurr y rest,
    m.stack = .resumed id th oldCurr y :: rest ∧ m' = m.taskYielded id th oldCurr y rest := by
  unfold Machine.step at hstep
  split_ifs at hstep
  cases hs : m.stack with
  | nil => simp [hs, Machine.codeStep] at hstep
  | cons f rest =>
    rw [hs] at hstep
    cases f with
    | resumed id th oldCurr y =>
      cases hstep
      exact ⟨id, th, oldCurr, y, rest, rfl, rfl⟩
    | call | wakeup => cases hstep
    | body => simp [Machine.bodyStep, Machine.codeStep] at hstep
    | pass => simp [Machine.passStep] at hstep

lemma stack_of_loop (hstep : m.step .loop = some m') : ∃ next taken rest,
    m.stack = .wakeup next taken :: rest ∧ m' = m.wakeupLoop next taken rest := by
  unfold Machine.step at hstep
  split_ifs at hstep
  cases hs : m.stack with
  | nil => simp [hs, Machine.codeStep] at hstep
  | cons f rest =>
    rw [hs] at hstep
    cases f with
    | wakeup next taken =>
      cases hstep
      exact ⟨next, taken, rest, rfl, rfl⟩
    | call | resumed => cases hstep
    | body => simp [Machine.bodyStep, Machine.codeStep] at hstep
    | pass => simp [Machine.passStep] at hstep

lemma stack_of_enter (hstep : m.step .enter = some m') : ∃ id rest, m.stack = .call id :: rest := by
  unfold Machine.step at hstep
  split_ifs at hstep
  cases hs : m.stack with
  | nil => simp [hs, Machine.codeStep] at hstep
  | cons f rest =>
    rw [hs] at hstep
    cases f with
    | call id => exact ⟨id, rest, rfl⟩
    | resumed | wakeup => cases hstep
    | body => simp [Machine.bodyStep, Machine.codeStep] at hstep
    | pass => simp [Machine.passStep] at hstep

lemma Tidy.fault_yielded (h : Tidy m) (hstep : m.step .yielded = some m') : m'.fault = none := by
  have hf := (Rule.of_step hstep).1
  obtain ⟨id, th, oldCurr, y, rest, hs, rfl⟩ := stack_of_yielded hstep
  unfold Machine.taskYielded
  rw [if_neg (h.left id th oldCurr y rest hs).1]
  dsimp only
  split_ifs <;> exact hf

lemma Tidy.fault_loop (h : Tidy m) (hstep : m.step .loop = some m') : m'.fault = none := by
  have hf := (Rule.of_step hstep).1
  obtain ⟨next, taken, rest, hs, rfl⟩ := stack_of_loop hstep
  unfold Machine.wakeupLoop
  split
  · exact hf
  · exact hf
  · split
    · next e he =>
      obtain ⟨l, hl⟩ := Finmap.mem_iff.mp (h.sent e (List.mem_of_getElem? he))
      rw [hl]
      exact hf
    · exact hf

lemma Tidy.enter {rest : List Frame} {t : Thread} {ok : Machine → Act → Prop} (h : Tidy m)
    (hm : Machine.Reached .normal ok m) (hf : m.fault = none) (hs : m.stack = .call id :: rest)
    (hth : m.sched.taskCoroutineMap id = some th) (ht : m.threads th = some t)
    (hsus : t.status = .suspended) : ∃ m', m.step .enter = some m' ∧ m'.fault = none := by
  obtain ⟨m', _, hstep, hf', -⟩ := step_enter_of_suspended hf hs (by simp [h.flags])
    (registered_of_reached hm hf) hth ht hsus
  exact ⟨m', hstep, hf'⟩

lemma Rule.callbacks_eq (hr : Rule m a m') (hf : m'.fault = none) (hfire : ∀ n, a ≠ .fire n)
    (hawait : ∀ always, a ≠ .awaitCallback always) : m'.callbacks = m.callbacks := by
  cases hr with
  | fault hf' | removeFault _ hf' | resumeFault _ _ _ _ _ _ _ _ _ hf' => simp [hf] at hf'
  | fire n => exact absurd rfl (hfire n)
  | awaitCallback always => exact absurd rfl (hawait always)
  | append =>
    unfold Machine.startTask
    split_ifs <;> rfl
  | _ => rfl

lemma Effect.threads_of_suspended {t : Thread} (h : Effect m a m') (hc : Coroutines m)
    (hb : Bodies m) (ht : m.threads th = some t) (hsus : t.status = .suspended)
    (hne : ∀ id rest, m.stack = .call id :: rest → m.sched.taskCoroutineMap id ≠ some th) :
    m'.threads th = some t := by
  cases h with
  | same _ ht₀ => rw [ht₀, ht]
  | install _ _ _ _ ht₀ =>
    rw [ht₀, Function.update_of_ne (Nat.ne_of_lt (hc.bound th (by simp [ht]))), ht]
  | resume id₀ th₀ rest t₀ _ hs hth₀ _ _ _ ht₁ =>
    have hth : th ≠ th₀ := fun heq => hne id₀ rest hs (heq ▸ hth₀)
    rw [ht₁, Function.update_of_ne hth, ht]
  | suspend id₀ th₀ oldCurr rest y _ hs _ _ ht₁ =>
    have hth : th ≠ th₀ := by
      rintro rfl
      obtain ⟨t₁, ht₁, hact⟩ := hb.active th (by simp [Machine.bodies, hs, Frame.bodyThread?])
      cases ht.symm.trans ht₁
      rw [hsus] at hact
      cases hact
    simp [ht₁, Machine.coroYield, Function.update_of_ne hth, ht]

lemma Effect.started_mono (h : Effect m a m') (hstart : m.Started th) : m'.Started th := by
  cases h with
  | same _ _ hlog | install _ _ _ _ _ hlog | suspend _ _ _ _ _ _ _ _ _ _ hlog =>
    exact hlog.started.mpr hstart
  | resume _ _ _ _ _ _ _ _ _ _ _ hlog => exact (started_cons hlog).mpr (.inr hstart)
end Verilua
