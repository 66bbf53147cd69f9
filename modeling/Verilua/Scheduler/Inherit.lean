import Verilua.Scheduler.Asks

/-!
# Restarted tasks and the waits of their earlier coroutines

`remove_task` cancels no callback, and `schedule_task` looks only at the task's id. A coroutine that
is installed for an id while a callback or a waiter of an earlier one is outstanding is resumed for
it. Where nothing is outstanding when a coroutine is installed, every suspension is ended by what it
asked for.
-/

namespace Verilua

open TransitionSystem

variable {o o' : Observed} {m m' : Machine} {a : Act} {mode : Mode} {id : TaskID} {th : ThreadID}
  {ρ : Ask}

/-- Every suspension of a coroutine is ended by the callback it has registered or by a wake-up for
its own place on a waiting list, and an event that it waits for has been sent meanwhile. -/
def Observed.EndsOwnWaits (o : Observed) : Prop :=
  ∀ r ∈ o.resumptions, r.cause = r.asked ∧ r.sent = true

/-- Tasks wait for an edge, a time or an event only. -/
def Act.waitsOnce : Act → Bool
  | .insertWaiter _ | .awaitCallback true => false
  | _ => true

def Frame.takes (id : TaskID) : Frame → Bool
  | .wakeup _ (some (_, ws)) => ws.any fun w => w.taskId = id
  | _ => false

/-- A callback, a waiting list or what a wake-up loop has taken of one names `id`. -/
def Machine.registered (m : Machine) (id : TaskID) : Bool :=
  (m.callbacks.any fun cb => cb.taskId = id) ||
    decide (∃ e ∈ m.sched.eventTaskIdListMap.keys, ∃ w ∈ m.sched.waiting e, w.taskId = id) ||
    m.stack.any (Frame.takes id)

/-- A coroutine is installed for an id only if no callback and no waiter of the id is outstanding,
and only the installed coroutine of an id waits. -/
def Machine.ownWaits (m : Machine) : Act → Bool
  | .appendTask (some id) _ _ _ | .tryWakeupTask id =>
    decide (id ∈ m.sched.taskNameMapRunning ∧ id ∉ m.sched.userRemovalTasksSet) || !m.registered id
  | .wakeupTask id => !m.registered id
  | .wait _ | .awaitCallback _ =>
    match m.stack with
    | .body id th _ :: _ => decide (m.sched.taskCoroutineMap id = some th)
    | _ => true
  | _ => true

/-! ### Coroutines that have asked for nothing -/

lemma Recorded.asked_nextThread (hrec : Recorded o) (hsound : o.Sound) :
    o.asked o.machine.nextThread = none := by
  by_contra hne
  exact absurd (hsound.coroutines.bound _ (hrec.known _ hne)) (Nat.lt_irrefl _)

lemma Recorded.asked_of_body (hrec : Recorded o) {oldCurr : TaskID} {rest : List Frame}
    (hs : o.machine.stack = .body id th oldCurr :: rest) : o.asked th = none :=
  hrec.bodies th (by simp [Machine.bodies, hs, Frame.bodyThread?])

/-! ### Nothing is outstanding for an unregistered id -/

lemma not_outstanding_of_registered (hrec : Recorded o) (h : o.machine.registered id = false)
    (ρ : Ask) : ¬ o.Outstanding id ρ := by
  simp only [Machine.registered, Bool.or_eq_false_iff, List.any_eq_false, decide_eq_true_eq,
    decide_eq_false_iff_not] at h
  obtain ⟨⟨hcb, hwait⟩, hloops⟩ := h
  cases ρ with
  | callback no =>
    intro hmem
    have hid : id ∈ o.machine.callbacks.map Callback.taskId :=
      hrec.pending ▸ List.mem_map.mpr ⟨_, hmem, rfl⟩
    obtain ⟨cb, hcb', rfl⟩ := List.mem_map.mp hid
    exact hcb cb hcb' rfl
  | event e w =>
    rintro ⟨hid, hw⟩
    rcases List.mem_append.mp hw with hw | hw
    · refine hwait ⟨e, ?_, w, hw, hid⟩
      by_contra hkey
      rw [Finmap.mem_keys, ← Finmap.lookup_eq_none] at hkey
      have hnil : o.machine.bus.waiting e = [] := by
        show (o.machine.sched.eventTaskIdListMap.lookup e).getD [] = []
        rw [hkey]
        rfl
      rw [hnil] at hw
      cases hw
    · obtain ⟨l, hl, hmem⟩ := List.mem_flatMap.mp hw
      obtain ⟨f, hf, hloop⟩ := List.mem_filterMap.mp hl
      refine hloops f hf ?_
      cases f with
      | wakeup next taken =>
        cases hloop
        cases taken with
        | none => cases hmem
        | some p =>
          obtain ⟨e', ws⟩ := p
          simp only [EventBus.Loop.tokens] at hmem
          split_ifs at hmem
          · exact List.any_eq_true.mpr ⟨w, hmem, by simp [hid]⟩
          · cases hmem
      | call | body | resumed | pass => cases hloop

/-- The steps that install a coroutine. -/
def Act.starts : Act → Bool
  | .appendTask .. | .wakeupTask _ | .tryWakeupTask _ => true
  | _ => false

lemma Rule.starts (hr : Rule m a m') (hf : m'.fault = none) (h : Installs m m' id) :
    a.starts = true := by
  rcases hr.installs hf h with ⟨user, name, body, startNow, s, -, rfl, -⟩ | ⟨name, body, s, hcl, -⟩
  · rfl
  · cases hcl <;> rfl

/-- The steps that call a task whose coroutine is there. -/
def Act.calls : Act → Bool
  | .fire _ | .loop | .pick _ => true
  | _ => false

lemma Move.same_of_calls (h : Move o a (o.note a m')) (hr : Rule o.machine a m')
    (hf : m'.fault = none) (ha : a.calls = true) : Same o (o.note a m') := by
  cases h with
  | same h' => exact h'
  | install id hi =>
    rw [note_machine] at hi
    have hstart := hr.starts hf hi
    cases a <;> cases ha <;> cases hstart
  | resume => cases ha
  | ask _ _ _ _ _ hact =>
    rcases hact with ⟨e, w, rfl, -⟩ | ⟨always, no, rfl, -⟩
    · cases ha
    · cases ha
  | insert => cases ha

/-- What is known of a step that installs a coroutine. -/
structure Installed (o o' : Observed) (id : TaskID) : Prop where
  coroutine : o'.machine.sched.taskCoroutineMap =
    Function.update o.machine.sched.taskCoroutineMap id (some o.machine.nextThread)
  asked : o'.asked = o.asked
  cause : o'.cause = none

lemma Move.install_of_installs (h : Move o a (o.note a m')) (hr : Rule o.machine a m')
    (hf : m'.fault = none) (hi : Installs o.machine m' id) : Installed o (o.note a m') id := by
  have hstart := hr.starts hf hi
  have hm := note_machine o a m'
  cases h with
  | same _ hno => exact absurd (hm.symm ▸ hi) (hno id)
  | install id₀ hi₀ hc hcause hasked =>
    obtain ⟨th, hlog⟩ := hi
    obtain ⟨th₀, hlog₀⟩ := hi₀
    rw [hm, hlog] at hlog₀
    cases hlog₀
    exact ⟨hc, hasked, hcause⟩
  | resume => cases hstart
  | ask _ _ _ _ _ hact =>
    rcases hact with ⟨e, w, rfl, -⟩ | ⟨always, no, rfl, -⟩
    · cases hstart
    · cases hstart
  | insert => cases hstart

lemma mem_tokens_of_answers {e : EventID} {w : Waiter} (h : m.answers? = some (.event e w)) :
    w ∈ m.bus.tokens e := by
  unfold Machine.answers? at h
  split at h
  · next next e' w' ws rest hs =>
    cases h
    refine List.mem_append_right _ (List.mem_flatMap.mpr ⟨⟨next, some (e, w :: ws)⟩, ?_, ?_⟩)
    · exact List.mem_filterMap.mpr ⟨_, hs ▸ List.mem_cons_self, rfl⟩
    · simp [EventBus.Loop.tokens]
  · cases h

/-! ### A task is picked by a pass once -/

/-- The task has been picked by a pass, or started otherwise. -/
def Machine.Fired (m : Machine) (id : TaskID) : Prop :=
  id ∈ m.sched.taskNameMapRunning → m.sched.taskFiredStatusMap id = true ∨
    ∃ kind start visited, .pass kind start visited (some id) ∈ m.stack

lemma foldl_unregister_fired (l : List TaskID) {s : Scheduler}
    (h : id ∈ (l.foldl Scheduler.unregister s).taskNameMapRunning) :
    (l.foldl Scheduler.unregister s).taskFiredStatusMap id = s.taskFiredStatusMap id := by
  induction l generalizing s with
  | nil => rfl
  | cons id' l ih =>
    have hne : id ≠ id' := by
      rintro rfl
      have hmem := (mem_foldl_unregister l (s := s.unregister id)).mp h
      simp [Scheduler.unregister] at hmem
    rw [List.foldl_cons, ih h]
    exact Function.update_of_ne hne _ _

lemma drain_running {s : Scheduler} (h : id ∈ s.drainPendingRemoval.taskNameMapRunning) :
    id ∈ s.taskNameMapRunning ∧
      s.drainPendingRemoval.taskFiredStatusMap id = s.taskFiredStatusMap id := by
  unfold Scheduler.drainPendingRemoval at h ⊢
  split_ifs at h ⊢ with hpos
  · exact ⟨((mem_foldl_unregister _).mp h).1, foldl_unregister_fired _ h⟩
  · exact ⟨h, rfl⟩

/-- A step that keeps the passes and takes no task out of `fired` but those that stop running. -/
lemma Machine.Fired.mono (h : m.Fired id)
    (hrun : id ∈ m'.sched.taskNameMapRunning → id ∈ m.sched.taskNameMapRunning ∧
      m'.sched.taskFiredStatusMap id = m.sched.taskFiredStatusMap id)
    (hs : ∀ kind start visited, .pass kind start visited (some id) ∈ m.stack →
      .pass kind start visited (some id) ∈ m'.stack) : m'.Fired id := by
  intro hid
  obtain ⟨hid', heq⟩ := hrun hid
  rw [heq]
  exact (h hid').imp_right fun ⟨kind, start, visited, hmem⟩ =>
    ⟨kind, start, visited, hs _ _ _ hmem⟩

lemma Shaped.pass_ret {kind kind' : PassKind} {start start' visited visited' : Finset TaskID}
    {ret : Option TaskID} {rest stack : List Frame} (h : Shaped stack)
    (hs : stack = .pass kind start visited ret :: rest)
    (hmem : .pass kind' start' visited' (some id) ∈ stack) : ret = some id := by
  rw [hs] at h
  rw [hs, h.pass_bottom, List.mem_singleton] at hmem
  cases hmem
  rfl

lemma Rule.fired (hr : Rule m a m') (hshape : Shaped m.stack) (hf : m'.fault = none)
    (hno : ¬ Installs m m' id) (h : m.Fired id) : m'.Fired id := by
  have hsub : ∀ {f : Frame} {rest stack : List Frame}, m.stack = f :: rest → rest ⊆ stack →
      (∀ kind start visited, f ≠ .pass kind start visited (some id)) → ∀ kind start visited,
      .pass kind start visited (some id) ∈ m.stack → .pass kind start visited (some id) ∈ stack := by
    intro f rest stack hs hsub hne kind start visited hmem
    rw [hs] at hmem
    exact hsub ((List.mem_cons.mp hmem).resolve_left fun heq => hne _ _ _ heq.symm)
  cases hr with
  | fault hf' | removeFault _ hf' | resumeFault _ _ _ _ _ _ _ _ _ hf' => simp [hf] at hf'
  | skip id₀ rest hs =>
    refine h.mono (fun hid => ?_) (hsub hs (List.Subset.refl _) (by simp))
    have hne : id ≠ id₀ := by
      rintro rfl
      simp [Scheduler.unregister] at hid
    simp only [Scheduler.unregister, Finmap.mem_erase, clearUserRemoval_running] at hid ⊢
    obtain ⟨hid', heq⟩ := drain_running hid.2
    have hclear : (m.sched.drainPendingRemoval.clearUserRemoval id₀).taskFiredStatusMap =
        m.sched.drainPendingRemoval.taskFiredStatusMap := by
      unfold Scheduler.clearUserRemoval
      split_ifs <;> rfl
    rw [Function.update_of_ne hne, hclear]
    exact ⟨hid', heq⟩
  | resume id₀ rest cnt th t hs =>
    exact h.mono (fun hid => drain_running hid) (hsub hs (List.subset_cons_self _ _) (by simp))
  | yieldedLoop id₀ th oldCurr y rest hs =>
    refine h.mono (fun hid => ?_) (hsub hs (List.subset_cons_self _ _) (by simp))
    simp only [settle_running] at hid
    refine ⟨hid, ?_⟩
    unfold Scheduler.settle Scheduler.removeTask'
    dsimp only
    split_ifs <;> rfl
  | yieldedReturn id₀ th oldCurr y rest hs =>
    refine h.mono (fun hid => ?_) (hsub hs (List.Subset.refl _) (by simp))
    simp only [settle_running] at hid
    refine ⟨hid, ?_⟩
    unfold Scheduler.settle Scheduler.removeTask'
    dsimp only
    split_ifs <;> rfl
  | loopWake next e w ws rest hs =>
    exact h.mono (fun hid => ⟨hid, rfl⟩) (hsub hs (fun f hf => by simp [hf]) (by simp))
  | loopNext next e rest hs | loopTake next e l rest hs =>
    exact h.mono (fun hid => ⟨hid, rfl⟩) (hsub hs (List.subset_cons_self _ _) (by simp))
  | loopClose next rest hs =>
    exact h.mono (fun hid => ⟨hid, rfl⟩) (hsub hs (List.Subset.refl _) (by simp))
  | startPass kind hs =>
    exact h.mono (fun hid => ⟨hid, rfl⟩) fun _ _ _ hmem => by simp [hs] at hmem
  | pickFired id₀ kind start visited rest hs | pick id₀ kind start visited ret rest hs
  | endPass kind start visited rest hs =>
    exact h.mono (fun hid => ⟨hid, rfl⟩) fun _ _ _ hmem => by cases hshape.pass_ret hs hmem
  | passReturn id₀ kind start visited rest hs =>
    by_cases heq : id = id₀
    · subst heq
      exact fun _ => .inl (Function.update_self ..)
    · refine h.mono (fun hid => ⟨hid, Function.update_of_ne heq _ _⟩) fun _ _ _ hmem => ?_
      cases hshape.pass_ret hs hmem
      exact absurd rfl heq
  | append user id₀ name body startNow s hs hch =>
    have hne : id ≠ id₀ := by rintro rfl; exact hno ⟨m.nextThread, startTask_log⟩
    have hsched : ∀ hid : id ∈ s.taskNameMapRunning.insert id₀ name,
        id ∈ m.sched.taskNameMapRunning ∧ s.taskFiredStatusMap id = m.sched.taskFiredStatusMap id := by
      intro hid
      cases hch with
      | given => exact ⟨(Finmap.mem_insert.mp hid).resolve_left hne, rfl⟩
      | fresh _ _ h' =>
        obtain ⟨-, -, -, rfl⟩ := Scheduler.allocTaskId_eq_some h'
        exact ⟨(Finmap.mem_insert.mp hid).resolve_left hne, rfl⟩
    unfold Machine.startTask
    split_ifs
    · refine h.mono (fun hid => ⟨(hsched hid).1, ?_⟩) fun _ _ _ hmem => List.mem_cons_of_mem _ hmem
      simp only [Machine.call, Machine.installTask, Machine.coroCreate]
      rw [Function.update_of_ne hne, Function.update_of_ne hne]
      exact (hsched hid).2
    · refine h.mono (fun hid => ⟨(hsched hid).1, ?_⟩) fun _ _ _ hmem => hmem
      simp only [Machine.installTask, Machine.coroCreate]
      rw [Function.update_of_ne hne]
      exact (hsched hid).2
  | restart _ id₀ name body s hs hcl =>
    have hne : id ≠ id₀ := by rintro rfl; exact hno ⟨m.nextThread, rfl⟩
    have hrun : s.taskNameMapRunning = m.sched.taskNameMapRunning := by
      cases hcl with
      | notRunning | pending => rfl
      | flagged | tried => exact clearUserRemoval_running ..
    have hfired : s.taskFiredStatusMap = m.sched.taskFiredStatusMap := by
      cases hcl with
      | notRunning | pending => rfl
      | flagged | tried => unfold Scheduler.clearUserRemoval; split_ifs <;> rfl
    refine h.mono (fun hid => ⟨?_, ?_⟩) fun _ _ _ hmem => List.mem_cons_of_mem _ hmem
    · exact (Finmap.mem_insert.mp (hrun ▸ hid)).resolve_left hne
    · simp only [Machine.call, Machine.coroCreate]
      rw [Function.update_of_ne hne, hfired]
  | fire => exact h.mono (fun hid => ⟨hid, rfl⟩) fun _ _ _ hmem => List.mem_cons_of_mem _ hmem
  | newEventHdl name user e s hs hch =>
    refine h.mono (fun hid => ?_) fun _ _ _ hmem => hmem
    cases hch with
    | given => exact ⟨hid, rfl⟩
    | fresh _ _ h' =>
      obtain ⟨-, -, -, rfl⟩ := Scheduler.allocEventId_eq_some h'
      exact ⟨hid, rfl⟩
  | remove id₀ | removeWaiting id₀ =>
    refine h.mono (fun hid => ?_) fun _ _ _ hmem => hmem
    simp only [flagUserRemoval_running] at hid
    refine ⟨hid, ?_⟩
    unfold Scheduler.flagUserRemoval
    split_ifs <;> rfl
  | wait e l id₀ th oldCurr rest hs | awaitCallback _ id₀ th oldCurr rest hs
  | yield y id₀ th oldCurr rest hs =>
    exact h.mono (fun hid => ⟨hid, rfl⟩) (hsub hs (List.subset_cons_self _ _) (by simp))
  | removeEvent | send | tryRunning | insertWaiter | awaitPosedge | awaitNegedge =>
    exact h.mono (fun hid => ⟨hid, rfl⟩) fun _ _ _ hmem => hmem

lemma Rule.fired_of_installs {rest : List Frame} (hr : Rule m a m') (hf : m'.fault = none)
    (hshape : Shaped m.stack) (hi : Installs m m' id) (hs : m'.stack = .call id :: rest) :
    m'.Fired id := by
  have hcode : AtCode m.stack → m.stack ≠ .call id :: rest := fun h =>
    (hshape.nested_of_atCode h).not_call id rest
  refine fun _ => .inl ?_
  obtain ⟨th, hlog⟩ := hi
  cases hr with
  | fault hf' | removeFault _ hf' | resumeFault _ _ _ _ _ _ _ _ _ hf' => simp [hf] at hf'
  | append user id₀ name body startNow s hat hch =>
    cases startTask_log.symm.trans hlog
    unfold Machine.startTask at hs ⊢
    split_ifs at hs ⊢
    · exact Function.update_self ..
    · exact absurd hs (hcode hat)
  | restart _ id₀ name body s hat hcl =>
    cases hlog
    exact Function.update_self ..
  | yieldedLoop | yieldedReturn =>
    dsimp only at hlog
    split_ifs at hlog
    · cases hlog
    · exact absurd hlog cons_ne_log
  | skip | resume | loopWake | send | remove | removeWaiting | wait | insertWaiter => cases hlog
  | _ => exact absurd hlog cons_ne_log

/-- A pass goes on until it is ended, and only `startPass` begins one. -/
lemma Rule.mem_pass {kind : PassKind} (hr : Rule m a m') (hf : m'.fault = none)
    (h : ∃ start visited ret, .pass kind start visited ret ∈ m'.stack) :
    (∃ start visited ret, .pass kind start visited ret ∈ m.stack) ∨
      (kind ≠ .all → m.mode = .edgeStep) := by
  obtain ⟨start, visited, ret, hmem⟩ := h
  have hold : ∀ {f : Frame} {rest : List Frame}, m.stack = f :: rest →
      .pass kind start visited ret ∈ rest →
      (∃ start visited ret, .pass kind start visited ret ∈ m.stack) ∨
        (kind ≠ .all → m.mode = .edgeStep) :=
    fun hs hmem => .inl ⟨_, _, _, hs ▸ List.mem_cons_of_mem _ hmem⟩
  cases hr with
  | fault hf' | removeFault _ hf' | resumeFault _ _ _ _ _ _ _ _ _ hf' => simp [hf] at hf'
  | startPass kind₀ hs hk =>
    cases List.mem_singleton.mp hmem
    exact .inr hk
  | skip _ _ hs | yieldedReturn _ _ _ _ _ hs | loopClose _ _ hs | endPass _ _ _ _ hs =>
    exact hold hs hmem
  | resume _ _ _ _ _ hs | yieldedLoop _ _ _ _ _ hs | loopNext _ _ _ hs | loopTake _ _ _ _ hs
  | wait _ _ _ _ _ _ hs | awaitCallback _ _ _ _ _ hs | yield _ _ _ _ _ hs =>
    exact hold hs ((List.mem_cons.mp hmem).resolve_left (by simp))
  | loopWake _ _ _ _ _ hs =>
    have hmem' := (List.mem_cons.mp hmem).resolve_left (by simp)
    exact hold hs ((List.mem_cons.mp hmem').resolve_left (by simp))
  | pickFired _ kind₀ _ _ rest hs | passReturn _ kind₀ _ _ rest hs =>
    rcases List.mem_cons.mp hmem with heq | hmem
    · cases heq
      exact .inl ⟨_, _, _, hs ▸ List.mem_cons_self⟩
    · exact hold hs hmem
  | pick _ kind₀ _ _ _ rest hs =>
    have hmem' := (List.mem_cons.mp hmem).resolve_left (by simp)
    rcases List.mem_cons.mp hmem' with heq | hmem
    · cases heq
      exact .inl ⟨_, _, _, hs ▸ List.mem_cons_self⟩
    · exact hold hs hmem
  | append user id name body startNow s =>
    rcases startTask_stack (Machine.installTask { m with sched := s } id name body)
      id startNow with heq | heq
    · exact .inl ⟨_, _, _, heq ▸ hmem⟩
    · rw [heq] at hmem
      exact .inl ⟨_, _, _, (List.mem_cons.mp hmem).resolve_left (by simp)⟩
  | fire | restart => exact .inl ⟨_, _, _, (List.mem_cons.mp hmem).resolve_left (by simp)⟩
  | newEventHdl | removeEvent | send | tryRunning | remove | removeWaiting | insertWaiter
  | awaitPosedge | awaitNegedge => exact .inl ⟨_, _, _, hmem⟩

lemma passes_all_of_reached {ok : Machine → Act → Prop} (h : Machine.Reached .normal ok m) :
    m.fault = none → ∀ kind, (∃ start visited ret, .pass kind start visited ret ∈ m.stack) →
      kind = .all := by
  refine Reach.invariant (I := fun m : Machine => m.fault = none → ∀ kind,
    (∃ start visited ret, .pass kind start visited ret ∈ m.stack) → kind = .all) h ?_ ?_
  · rintro - kind ⟨start, visited, ret, hmem⟩
    cases hmem
  · intro m a m' hm ih _ hs hf kind hmem
    obtain ⟨hf₀, hr⟩ := Rule.of_step hs
    rcases hr.mem_pass hf hmem with hold | hk
    · exact ih hf₀ kind hold
    · by_contra hne
      have hmode := hk hne
      rw [mode_of_reached hm hf₀] at hmode
      cases hmode

/-- Until `schedule_task` has returned to the pass, the pass has yet to note that it has picked the
task. -/
lemma fired_of_pick {rest : List Frame} (hs : m.step (.pick id) = some m') (hf : m'.fault = none)
    (hmode : m.mode = .normal)
    (hkind : ∀ kind, (∃ start visited ret, .pass kind start visited ret ∈ m.stack) → kind = .all)
    (hs' : m'.stack = .call id :: rest) : m'.Fired id := by
  refine fun _ => .inr ?_
  unfold Machine.step at hs
  split_ifs at hs
  split at hs
  case h_1 heq | h_2 heq | h_3 heq | h_6 heq => cases heq
  case h_4 kind start visited ret rest₀ heq =>
    obtain rfl := hkind kind ⟨_, _, _, heq ▸ List.mem_cons_self⟩
    simp only [Machine.passStep] at hs
    split_ifs at hs with hpick hall hfired
    · cases hs
      cases hs'
    · cases hs
      exact ⟨_, _, _, List.mem_cons_of_mem _ List.mem_cons_self⟩
    · exact absurd ⟨trivial, hmode⟩ hall
  all_goals cases hs

/-! ### What is outstanding has been asked for by the task's coroutine -/

/-- The conditions under which every suspension is ended by what it asked for. -/
def Observed.ownWaits (o : Observed) (a : Act) : Bool :=
  a.waitsOnce && o.machine.ownWaits a && o.machine.prompt a

structure Own (o : Observed) : Prop where
  /-- Whatever will resume `id` is what its coroutine waits for. -/
  outstanding : ∀ id ρ, o.Outstanding id ρ →
    ∃ th, o.machine.sched.taskCoroutineMap id = some th ∧ o.asked th = some ρ
  /-- A call is made for what the coroutine waits for, which is outstanding no more. -/
  call : ∀ id rest th, o.machine.stack = .call id :: rest →
    o.machine.sched.taskCoroutineMap id = some th → o.asked th = o.cause ∧
      ∀ ρ, o.cause = some ρ → ¬ o.Outstanding id ρ ∧
        ∀ e w, ρ = .event e w → ∃ log, o.machine.log = .wake e w :: log
  /-- A task that waits, runs or is called has been picked by a pass or started otherwise. -/
  fired : ∀ id th, o.machine.sched.taskCoroutineMap id = some th →
    (o.asked th ≠ none ∨ th ∈ o.machine.bodies ∨ ∃ rest, o.machine.stack = .call id :: rest) →
    o.machine.Fired id
  oneShot : ∀ cb ∈ o.machine.callbacks, cb.always = false

section Step

variable (h : Own o) (hsound : o.Sound) (hrec : Recorded o) (hreg : o.machine.sched.Registered)
  (hr : Rule o.machine a m') (hok : o.ownWaits a = true) (hf : m'.fault = none)

include h hrec hreg hr hok hf in
lemma Own.not_outstanding_of_installs (hi : Installs o.machine m' id) (ρ : Ask) :
    ¬ o.Outstanding id ρ := by
  simp only [Observed.ownWaits, Bool.and_eq_true] at hok
  have hclean := hok.1.2
  rcases hr.installs hf hi with ⟨user, name, body, startNow, s, hch, rfl, -⟩ | ⟨name, body, s, hcl, -⟩
  · cases hch with
    | given _ hv hrun =>
      simp only [Machine.ownWaits, Bool.or_eq_true, decide_eq_true_eq, Bool.not_eq_true'] at hclean
      exact not_outstanding_of_registered hrec (hclean.resolve_left fun hp => hp.2 (hrun hp.1)) ρ
    | fresh _ _ h' =>
      intro hout
      obtain ⟨th, hth, -⟩ := h.outstanding id ρ hout
      refine (hreg.coroutine id).mpr (by rw [hth]; rfl) ?_
      exact (Scheduler.allocTaskId_eq_some h').1
  · cases hcl with
    | tried hrun =>
      simp only [Machine.ownWaits, Bool.or_eq_true, decide_eq_true_eq, Bool.not_eq_true'] at hclean
      exact not_outstanding_of_registered hrec (hclean.resolve_left fun hp => hp.2 (hrun hp.1)) ρ
    | notRunning | flagged | pending =>
      simp only [Machine.ownWaits, Bool.not_eq_true'] at hclean
      exact not_outstanding_of_registered hrec hclean ρ

include h hsound hrec hreg hr hok hf in
lemma Own.outstanding_step (id : TaskID) (ρ : Ask) (hout : (o.note a m').Outstanding id ρ) :
    ∃ th, m'.sched.taskCoroutineMap id = some th ∧ (o.note a m').asked th = some ρ := by
  have hm := note_machine o a m'
  have hmove := hr.move hsound.flagDown hsound.currentTask hf
  cases hmove with
  | same h' =>
    obtain ⟨th, hc, hask⟩ := h.outstanding id ρ (h'.outstanding id ρ hout)
    exact ⟨th, by rw [← hm, h'.coroutine, hc], by rw [h'.asked, hask]⟩
  | install id₀ hi hc _ hasked _ hout' =>
    have hold := hout' id ρ hout
    have hne : id ≠ id₀ := by
      rintro rfl
      exact h.not_outstanding_of_installs hrec hreg hr hok hf (hm ▸ hi) ρ hold
    obtain ⟨th, hc₀, hask⟩ := h.outstanding id ρ hold
    exact ⟨th, by rw [← hm, hc, Function.update_of_ne hne, hc₀], by rw [hasked, hask]⟩
  | resume id₀ th₀ rest hs _ hc₀ hc hasked _ hout' =>
    have hold := hout' id ρ hout
    obtain ⟨th, hc₁, hask⟩ := h.outstanding id ρ hold
    -- what `id` was called for was the last that was outstanding for it
    have hne : th ≠ th₀ := by
      rintro rfl
      obtain rfl := hsound.coroutines.injective _ _ _ hc₁ hc₀
      obtain ⟨heq, hnot⟩ := h.call id rest th hs hc₀
      exact (hnot ρ (heq ▸ hask)).1 hold
    exact ⟨th, by rw [← hm, hc, hc₁], by rw [hasked, Function.update_of_ne hne, hask]⟩
  | ask id₀ th₀ oldCurr rest ρ₀ ha hs hs' hc hasked _ hout' =>
    have hinstalled : o.machine.sched.taskCoroutineMap id₀ = some th₀ := by
      simp only [Observed.ownWaits, Bool.and_eq_true] at hok
      have hclean := hok.1.2
      rcases ha with ⟨e, w, rfl, -⟩ | ⟨always, no, rfl, -⟩
      all_goals
        simp only [Machine.ownWaits, hs, decide_eq_true_eq] at hclean
        exact hclean
    rcases hout' id ρ hout with hold | ⟨rfl, rfl⟩
    · obtain ⟨th, hc₁, hask⟩ := h.outstanding id ρ hold
      have hne : th ≠ th₀ := by
        rintro rfl
        rw [hrec.asked_of_body hs] at hask
        cases hask
      exact ⟨th, by rw [← hm, hc, hc₁], by rw [hasked, Function.update_of_ne hne, hask]⟩
    · exact ⟨th₀, by rw [← hm, hc, hinstalled], by rw [hasked, Function.update_self]⟩
  | insert => simp [Observed.ownWaits, Act.waitsOnce] at hok

include h in
lemma Own.call_of_outstanding {o' : Observed} (h' : Same o o') (hcause : o'.cause = some ρ)
    (hout : o.Outstanding id ρ) (hnot : ¬ o'.Outstanding id ρ)
    (hlog : ∀ e w, ρ = .event e w → ∃ log, o'.machine.log = .wake e w :: log)
    (hc : o'.machine.sched.taskCoroutineMap id = some th) :
    o'.asked th = o'.cause ∧ ∀ ρ, o'.cause = some ρ → ¬ o'.Outstanding id ρ ∧
      ∀ e w, ρ = .event e w → ∃ log, o'.machine.log = .wake e w :: log := by
  obtain ⟨th', hc', hask⟩ := h.outstanding id ρ hout
  rw [h'.coroutine] at hc
  cases hc.symm.trans hc'
  refine ⟨by rw [h'.asked, hask, hcause], fun ρ' hρ' => ?_⟩
  cases hcause.symm.trans hρ'
  exact ⟨hnot, hlog⟩

variable (hmode : o.machine.mode = .normal) (hkind : ∀ kind,
  (∃ start visited ret, .pass kind start visited ret ∈ o.machine.stack) → kind = .all)

include h hsound hrec hr hf hmode hkind in
lemma Own.call_step (honce : EventBus.Once m'.bus) {rest : List Frame}
    (hs' : m'.stack = .call id :: rest) (hc' : m'.sched.taskCoroutineMap id = some th) :
    (o.note a m').asked th = (o.note a m').cause ∧
      ∀ ρ, (o.note a m').cause = some ρ → ¬ (o.note a m').Outstanding id ρ ∧
        ∀ e w, ρ = .event e w → ∃ log, (o.note a m').machine.log = .wake e w :: log := by
  have hm := note_machine o a m'
  have hmove := hr.move hsound.flagDown hsound.currentTask hf
  have hc : (o.note a m').machine.sched.taskCoroutineMap id = some th := by rw [hm]; exact hc'
  cases hr.called hsound.shaped hf hs' with
  | fire n cb ha hcb hid =>
    subst ha
    subst hid
    obtain ⟨no, hp⟩ := hrec.getElem? hcb
    have hshot := h.oneShot cb (List.mem_of_getElem? hcb)
    refine h.call_of_outstanding (hmove.same_of_calls hr hf rfl) (ρ := .callback no) ?_
      (List.mem_of_getElem? hp) ?_ (by simp) hc
    · simp [Observed.note, hp]
    · intro hout
      refine hrec.not_mem_eraseIdx hp ?_
      simpa [Observed.Outstanding, Observed.note, hcb, hshot] using hout
  | wake e w ha hw hid hlog =>
    subst ha
    refine h.call_of_outstanding (hmove.same_of_calls hr hf rfl) (ρ := .event e w) hw
      ⟨hid, mem_tokens_of_answers hw⟩ ?_ ?_ hc
    · rintro ⟨-, hmem⟩
      rw [hm] at hmem
      refine honce.not_handed e w hmem ?_
      show _ ∈ m'.busLog
      rw [Machine.busLog, hlog]
      exact List.mem_cons_self
    · intro e' w' heq
      cases heq
      exact ⟨_, hm ▸ hlog⟩
  | pick kind start visited rest₀ ha hs hk hfired =>
    subst ha
    have hsame := hmove.same_of_calls hr hf rfl
    refine ⟨?_, fun ρ hρ => by cases hρ⟩
    rw [hsame.asked]
    by_contra hne
    obtain rfl := hkind kind ⟨_, _, _, hs ▸ List.mem_cons_self⟩
    rw [hsame.coroutine] at hc
    rcases h.fired id th hc (.inl hne) (Finmap.mem_keys.mp hk) with htrue | ⟨kind', start', visited', hmem⟩
    · rw [hfired rfl hmode] at htrue
      cases htrue
    · cases hsound.shaped.pass_ret hs hmem
  | start hi =>
    have hinst := hmove.install_of_installs hr hf hi
    rw [hinst.coroutine, Function.update_self] at hc
    cases hc
    refine ⟨?_, fun ρ hρ => ?_⟩
    · rw [hinst.asked, hinst.cause]
      exact hrec.asked_nextThread hsound
    · rw [hinst.cause] at hρ
      cases hρ

include h hsound hrec hr hf hmode hkind in
lemma Own.fired_step (hs : o.machine.step a = some m')
    (hc' : m'.sched.taskCoroutineMap id = some th)
    (hcond : (o.note a m').asked th ≠ none ∨ th ∈ m'.bodies ∨ ∃ rest, m'.stack = .call id :: rest) :
    m'.Fired id := by
  have hmove := hr.move hsound.flagDown hsound.currentTask hf
  by_cases hi : Installs o.machine m' id
  · have hinst := hmove.install_of_installs hr hf hi
    have hc := hinst.coroutine
    rw [note_machine] at hc
    rw [hc, Function.update_self] at hc'
    cases hc'
    have hfresh : ¬ (o.machine.threads o.machine.nextThread).isSome := fun hsome =>
      absurd (hsound.coroutines.bound _ hsome) (Nat.lt_irrefl _)
    rcases hcond with hask | hbody | ⟨rest, hs'⟩
    · rw [hinst.asked] at hask
      exact absurd (hrec.known _ hask) hfresh
    · rcases hr.mem_bodies hf hbody with hold | ⟨rfl, -⟩
      · obtain ⟨t, ht, -⟩ := hsound.bodies.active _ hold
        exact absurd (by rw [ht]; rfl) hfresh
      · exact absurd (hr.starts hf hi) (by simp [Act.starts])
    · exact hr.fired_of_installs hf hsound.shaped hi hs'
  · have hc : o.machine.sched.taskCoroutineMap id = some th :=
      (hr.coroutine_eq hf hi).symm.trans hc'
    have hkeep := fun hcond => hr.fired hsound.shaped hf hi (h.fired id th hc hcond)
    rcases hcond with hask | hbody | ⟨rest, hs'⟩
    · refine hkeep ?_
      cases hmove with
      | same h' => exact .inl (h'.asked ▸ hask)
      | install _ _ _ _ hasked | insert _ _ _ _ _ _ _ hasked => exact .inl (hasked ▸ hask)
      | resume id₀ th₀ rest hs hskip hc hc' hasked =>
        rw [hasked] at hask
        refine .inl fun hnone => hask ?_
        by_cases heq : th = th₀
        · rw [heq, Function.update_self]
        · rw [Function.update_of_ne heq, hnone]
      | ask id₀ th₀ oldCurr rest ρ ha hs hs' hc hasked =>
        by_cases heq : th = th₀
        · exact .inr (.inl (by simp [Machine.bodies, hs, Frame.bodyThread?, heq]))
        · rw [hasked, Function.update_of_ne heq] at hask
          exact .inl hask
    · rcases hr.mem_bodies hf hbody with hold | ⟨rfl, id₀, t, hlog⟩
      · exact hkeep (.inr (.inl hold))
      · obtain ⟨rest, hs₀, hc₀⟩ := hr.called_of_resume hf hlog
        obtain rfl := hsound.coroutines.injective _ _ _ hc hc₀
        exact hkeep (.inr (.inr ⟨rest, hs₀⟩))
    · cases hr.called hsound.shaped hf hs' with
      | fire n cb ha hcb hid =>
        obtain ⟨no, hp⟩ := hrec.getElem? hcb
        obtain ⟨th', hth', hask⟩ := h.outstanding cb.taskId (.callback no) (List.mem_of_getElem? hp)
        rw [hid] at hth'
        cases hc.symm.trans hth'
        exact hkeep (.inl (by simp [hask]))
      | wake e w ha hw hid =>
        obtain ⟨th', hth', hask⟩ := h.outstanding id (.event e w) ⟨hid, mem_tokens_of_answers hw⟩
        cases hc.symm.trans hth'
        exact hkeep (.inl (by simp [hask]))
      | pick kind start visited rest₀ ha =>
        subst ha
        exact fired_of_pick hs hf hmode hkind hs'
      | start hi' => exact absurd hi' hi

include h hr hok hf in
lemma Own.oneShot_step (cb : Callback) (hcb : cb ∈ m'.callbacks) : cb.always = false := by
  cases hr with
  | fault hf' | removeFault _ hf' | resumeFault _ _ _ _ _ _ _ _ _ hf' => simp [hf] at hf'
  | fire n cb' =>
    dsimp only at hcb
    split_ifs at hcb
    · exact h.oneShot cb hcb
    · exact h.oneShot cb (List.eraseIdx_subset hcb)
  | awaitCallback always =>
    rcases List.mem_append.mp hcb with hcb | hcb
    · exact h.oneShot cb hcb
    · rw [List.mem_singleton.mp hcb]
      cases always with
      | false => rfl
      | true => simp [Observed.ownWaits, Act.waitsOnce] at hok
  | append =>
    unfold Machine.startTask at hcb
    split_ifs at hcb <;> exact h.oneShot cb hcb
  | _ => exact h.oneShot cb hcb

include h hsound hrec hreg hr hok hf hmode hkind in
lemma Own.step (hs : o.machine.step a = some m') (honce : EventBus.Once m'.bus) :
    Own (o.note a m') := by
  have hm := note_machine o a m'
  refine ⟨?_, ?_, ?_, ?_⟩
  · rw [hm]
    exact h.outstanding_step hsound hrec hreg hr hok hf
  · intro id rest th hs' hc'
    rw [hm] at hs' hc'
    exact h.call_step hsound hrec hr hf hmode hkind honce hs' hc'
  · intro id th hc' hcond
    rw [hm] at hc' hcond ⊢
    exact h.fired_step hsound hrec hr hf hmode hkind hs hc' hcond
  · rw [hm]
    exact h.oneShot_step hr hok hf

end Step

lemma own_of_reached (h : Observed.Reached .normal (fun o a => o.ownWaits a = true) o) :
    o.machine.fault = none → Own o := by
  refine Reach.invariant (I := fun o : Observed => o.machine.fault = none → Own o) h ?_ ?_
  · intro _
    refine ⟨?_, ?_, ?_, ?_⟩
    · rintro id (no | ⟨e, w⟩) hout
      · cases hout
      · simp [Observed.Outstanding, Observed.init, Machine.bus, EventBus.Bus.tokens, Machine.init,
          EventTables.waiting, Scheduler.eventTables, Scheduler.init] at hout
    · intro id rest th hs
      cases hs
    · intro id th hc
      cases hc
    · intro cb hcb
      cases hcb
  · intro o a o' hreach ih hok hs hf
    obtain ⟨hstep, heq⟩ := Observed.machine_of_step hs
    obtain ⟨hm, hr⟩ := Rule.of_step hstep
    have hmachine : Machine.Reached .normal Unguarded o.machine :=
      machine_of_reached hreach fun _ _ _ => trivial
    have hsound := sound_of_reached hreach hm
    have honce := (sound_of_reached (hreach.tail hok hs) hf).once
    rw [heq, Observed.observe, if_neg (by simp [hf])]
    exact (ih hm).step hsound (recorded_of_reached hreach hm) (registered_of_reached hmachine hm) hr
      hok hf (mode_of_reached hmachine hm) (passes_all_of_reached hmachine hm) hstep honce

/-- In a run in which nothing is outstanding for a task when a coroutine is installed for it, only
the installed coroutine waits, and waits and wake-up loops are prompt, every suspension is ended by
what it asked for. -/
theorem endsOwnWaits_of_ownWaits
    (h : Observed.Reached .normal (fun o a => o.ownWaits a = true) o) : o.EndsOwnWaits := by
  refine Reach.invariant (I := Observed.EndsOwnWaits) h (fun r hr => nomatch hr) ?_
  intro o a o' hreach ih hok hs
  obtain ⟨hstep, heq⟩ := Observed.machine_of_step hs
  obtain ⟨hm, hr⟩ := Rule.of_step hstep
  rw [heq, Observed.observe]
  split_ifs with hf
  · exact ih
  · replace hf : o'.machine.fault = none := by simpa using hf
    have hsound := sound_of_reached hreach hm
    have hmove := hr.move hsound.flagDown hsound.currentTask hf
    have hprompt : wakesAnswered o.machine.log = true :=
      wakesAnswered_of_reached (machine_of_reached hreach fun o a hok => by
        simp only [Observed.ownWaits, Bool.and_eq_true] at hok
        exact hok.2)
    cases hmove with
    | same h' => exact fun r hr => ih r (h'.resumptions ▸ hr)
    | install _ _ _ _ _ hres | insert _ _ _ _ _ _ _ _ hres | ask _ _ _ _ _ _ _ _ _ _ hres =>
      exact fun r hr => ih r (hres ▸ hr)
    | resume id th rest hs' hskip hc hc' hasked hres =>
      intro r hr
      rw [hres] at hr
      rcases List.mem_cons.mp hr with rfl | hr
      · obtain ⟨hcause, hwake⟩ := (own_of_reached hreach hm).call id rest th hs' hc
        refine ⟨hcause.symm, ?_⟩
        dsimp only
        rw [hcause]
        rcases hρ : o.cause with _ | (no | ⟨e, w⟩)
        · rfl
        · rfl
        · obtain ⟨log, hlog⟩ := (hwake _ hρ).2 e w rfl
          rw [hlog] at hprompt ⊢
          simp only [wakesAnswered, Bool.and_eq_true] at hprompt
          exact hprompt.1
      · exact ih r hr

/-- `A: clock:posedge()` is removed while it waits and started again as `A: await_time(…)`; then the
edge comes. -/
def restartedBeforeTheEdge : List Act :=
  [.appendTask none "A" 0 true, .enter, .awaitCallback false, .yielded,
   .removeTask 1, .wakeupTask 1, .enter, .awaitCallback false, .yielded, .fire 0, .enter]

theorem not_endsOwnWaits :
    ¬ ∀ o, Observed.Reached .normal (fun _ a => a.waitsOnce = true) o → o.EndsOwnWaits := by
  intro hall
  have hrun : (runChecked Observed.step (fun _ a => a.waitsOnce = true) (Observed.init .normal)
      restartedBeforeTheEdge).map (fun o => o.resumptions.head?) =
      some (some ⟨1, some (.callback 1), some (.callback 0), true⟩) := by
    decide +kernel
  obtain ⟨o, ho, hhead⟩ := Option.map_eq_some_iff.mp hrun
  obtain ⟨hcause, -⟩ := hall o (reach_of_runChecked ho) _ (List.mem_of_head? hhead)
  cases hcause

/-- `A` is removed while it waits for an edge and is started again after the edge has come; then it
waits for an event. -/
def restartedAfterTheEdge : List Act :=
  [.newEventHdl "e" none, .appendTask none "A" 0 true, .enter, .awaitCallback false, .yielded,
   .removeTask 1, .fire 0, .enter, .wakeupTask 1, .enter, .wait 1, .yielded,
   .appendTask none "B" 1 true, .enter, .send 1, .yield .returned, .yielded, .loop, .loop, .enter]

theorem endsOwnWaits_of_restartedAfterTheEdge :
    ∃ o, runChecked Observed.step (fun o a => o.ownWaits a = true) (Observed.init .normal)
        restartedAfterTheEdge = some o ∧
      o.resumptions.head? =
        some ⟨1, some (.event 1 ⟨1, 0⟩), some (.event 1 ⟨1, 0⟩), true⟩ ∧ o.EndsOwnWaits := by
  have hrun : (runChecked Observed.step (fun o a => o.ownWaits a = true) (Observed.init .normal)
      restartedAfterTheEdge).map (fun o => o.resumptions.head?) =
      some (some ⟨1, some (.event 1 ⟨1, 0⟩), some (.event 1 ⟨1, 0⟩), true⟩) := by
    decide +kernel
  obtain ⟨o, ho, hhead⟩ := Option.map_eq_some_iff.mp hrun
  exact ⟨o, ho, hhead, endsOwnWaits_of_ownWaits (reach_of_runChecked ho)⟩

end Verilua
