import Verilua.Scheduler.Wakeup

/-!
# Making event handles

`new_event_hdl` and its aliases put an empty waiting list in the place of the one that the event
had. Where no task is on that list, no wait is lost by it: every wait stays registered until its
task is scheduled for a send or removed, and a send reaches all that waited before it.
-/

namespace Verilua

open TransitionSystem

variable {m m' : Machine} {a : Act} {mode : Mode} {ok : Machine → Act → Prop} {id : TaskID}
  {e : EventID} {w : Waiter} {x : Ev} {log : List Ev}

/-! ### Wake-ups and what `schedule_task` makes of them -/

/-- What `schedule_task(id)` does first: it resumes the task, or returns on the removal flag. -/
def Ev.enters (id : TaskID) : Ev → Prop
  | .resume id' _ _ => id' = id
  | .skip id' => id' = id
  | _ => False

/-- The task of `w` has been scheduled for its wait on `e`. -/
def Scheduled (e : EventID) (w : Waiter) (log : List Ev) : Prop :=
  ∃ later x earlier, log = later ++ x :: .wake e w :: earlier ∧ x.enters w.taskId

/-- Every wake-up but the last entry is followed by what `schedule_task` made of it. -/
def WakesEntered : List Ev → Prop
  | x :: y :: log => (∀ e w, y = .wake e w → x.enters w.taskId) ∧ WakesEntered (y :: log)
  | _ => True

lemma WakesEntered.cons (h : WakesEntered log) (hx : ∀ e w log', log = .wake e w :: log' →
    x.enters w.taskId) : WakesEntered (x :: log) := by
  cases log with
  | nil => trivial
  | cons y log => exact ⟨fun e w hy => hx e w log (by rw [hy]), h⟩

lemma WakesEntered.scheduled (h : WakesEntered log) (hmem : .wake e w ∈ log)
    (hhead : ∀ log', log ≠ .wake e w :: log') : Scheduled e w log := by
  induction log with
  | nil => cases hmem
  | cons x log ih =>
    have hne : x ≠ .wake e w := fun heq => hhead log (by rw [heq])
    have hmem' : .wake e w ∈ log := (List.mem_cons.mp hmem).resolve_left (Ne.symm hne)
    cases log with
    | nil => cases hmem'
    | cons y log =>
      by_cases hy : y = .wake e w
      · subst hy
        exact ⟨[], x, log, rfl, h.1 e w rfl⟩
      · obtain ⟨later, x', earlier, heq, hx⟩ := ih h.2 hmem' fun log' heq => hy (List.cons.inj heq).1
        exact ⟨x :: later, x', earlier, by rw [heq, List.cons_append], hx⟩

/-- The task of the newest wake-up is about to be scheduled. -/
structure Entering (m : Machine) : Prop where
  entered : WakesEntered m.log
  head : ∀ e w log, m.log = .wake e w :: log → ∃ rest, m.stack = .call w.taskId :: rest

lemma Rule.enters {rest : List Frame} (hr : Rule m a m') (hf : m'.fault = none)
    (hs : m.stack = .call id :: rest) : ∃ x : Ev, m'.log = x :: m.log ∧ x.enters id := by
  have hcode : ¬ AtCode m.stack := fun h => by
    rw [hs] at h
    exact h
  cases hr with
  | fault hf' | removeFault _ hf' | resumeFault _ _ _ _ _ _ _ _ _ hf' => simp [hf] at hf'
  | skip id' rest' hs' =>
    cases hs.symm.trans hs'
    exact ⟨_, rfl, rfl⟩
  | resume id' rest' cnt th t hs' =>
    cases hs.symm.trans hs'
    exact ⟨_, rfl, rfl⟩
  | fire _ _ h | newEventHdl _ _ _ _ h | removeEvent _ h | send _ h | append _ _ _ _ _ _ h
  | restart _ _ _ _ _ h | tryRunning _ h | remove _ h | removeWaiting _ _ _ _ _ h =>
    exact absurd h hcode
  | startPass _ h => rw [hs] at h; cases h
  | yieldedLoop _ _ _ _ _ h | yieldedReturn _ _ _ _ _ h | loopWake _ _ _ _ _ h | loopNext _ _ _ h
  | loopTake _ _ _ _ h | loopClose _ _ h | pickFired _ _ _ _ _ h | pick _ _ _ _ _ _ h
  | passReturn _ _ _ _ _ h | endPass _ _ _ _ h | wait _ _ _ _ _ _ h | insertWaiter _ _ _ _ _ _ h
  | awaitCallback _ _ _ _ _ h | awaitPosedge _ _ _ _ h | awaitNegedge _ _ _ _ h
  | yield _ _ _ _ _ h => cases hs.symm.trans h

/-- What a step writes into the log: nothing, a wake-up whose task it then calls, or entries that
are no wake-ups. -/
lemma Rule.log_cases (hr : Rule m a m') (hf : m'.fault = none) :
    m'.log = m.log ∨ (∃ e w rest, m'.log = .wake e w :: m.log ∧ m'.stack = .call w.taskId :: rest) ∨
      ∃ x xs, m'.log = x :: (xs ++ m.log) ∧ ∀ y ∈ x :: xs, ∀ e w, y ≠ .wake e w := by
  cases hr with
  | fault hf' | removeFault _ hf' | resumeFault _ _ _ _ _ _ _ _ _ hf' => simp [hf] at hf'
  | loopWake next e w ws rest => exact .inr (.inl ⟨e, w, _, rfl, rfl⟩)
  | yieldedLoop id th oldCurr y | yieldedReturn id th oldCurr y =>
    dsimp only
    split_ifs
    · exact .inr (.inr ⟨_, [], rfl, by simp⟩)
    · exact .inl rfl
  | skip | resume | send | remove | wait | insertWaiter =>
    exact .inr (.inr ⟨_, [], rfl, by simp⟩)
  | removeWaiting id e l i w => exact .inr (.inr ⟨_, [_], rfl, by simp⟩)
  | append user id name body startNow s =>
    refine .inr (.inr ⟨_, [], startTask_log.trans rfl, by simp⟩)
  | restart => exact .inr (.inr ⟨_, [], rfl, by simp⟩)
  | _ => exact .inl rfl

lemma Entering.step (h : Entering m) (hr : Rule m a m') (hf : m'.fault = none) : Entering m' := by
  by_cases hwake : ∃ e w log, m.log = .wake e w :: log
  · obtain ⟨e, w, log, hlog⟩ := hwake
    obtain ⟨rest, hs⟩ := h.head e w log hlog
    obtain ⟨x, hx, henters⟩ := hr.enters hf hs
    refine ⟨hx ▸ h.entered.cons fun e' w' log' heq => ?_, fun e' w' log' heq => ?_⟩
    · cases hlog.symm.trans heq
      exact henters
    · cases hx.symm.trans heq
      exact henters.elim
  · have hhead : ∀ e w log', m.log ≠ .wake e w :: log' := fun e w log' heq =>
      hwake ⟨e, w, log', heq⟩
    rcases hr.log_cases hf with hlog | ⟨e, w, rest, hlog, hs⟩ | ⟨x, xs, hlog, hno⟩
    · exact ⟨hlog ▸ h.entered, fun e w log heq => absurd (hlog.symm.trans heq) (hhead e w log)⟩
    · refine ⟨hlog ▸ h.entered.cons fun e' w' log' heq => absurd heq (hhead e' w' log'), ?_⟩
      intro e' w' log' heq
      cases hlog.symm.trans heq
      exact ⟨rest, hs⟩
    · refine ⟨?_, fun e w log heq => ?_⟩
      · rw [hlog]
        have hall : ∀ ys : List Ev, (∀ y ∈ ys, ∀ e w, y ≠ .wake e w) →
            WakesEntered (ys ++ m.log) ∧ ∀ e w log', ys ++ m.log ≠ .wake e w :: log' := by
          intro ys hys
          induction ys with
          | nil => exact ⟨h.entered, hhead⟩
          | cons y ys ih =>
            obtain ⟨hent, hne⟩ := ih fun z hz => hys z (List.mem_cons_of_mem _ hz)
            refine ⟨hent.cons fun e w log' heq => absurd heq (hne e w log'), fun e w log' heq => ?_⟩
            exact hys y List.mem_cons_self e w (List.cons.inj heq).1
        exact (hall (x :: xs) hno).1
      · exact absurd (List.cons.inj (hlog.symm.trans heq)).1 (hno x List.mem_cons_self e w)

lemma entering_of_reached (h : Machine.Reached mode ok m) : m.fault = none → Entering m := by
  refine Reach.invariant (I := fun m : Machine => m.fault = none → Entering m) h
    (fun _ => ⟨trivial, fun _ _ _ heq => nomatch heq⟩) ?_
  intro m a m' _ ih _ hs hf
  obtain ⟨hm, hr⟩ := Rule.of_step hs
  exact (ih hm).step hr hf

/-! ### No wait is lost -/

/-- A wake-up loop has `w` of `e` still to pass to `schedule_task`. -/
def Machine.holds (m : Machine) (e : EventID) (w : Waiter) : Prop :=
  ∃ next ws, .wakeup next (some (e, ws)) ∈ m.stack ∧ w ∈ ws

/-- Making a handle is harmless in the runs of steps that satisfy `ok`. -/
structure Machine.Harmless (ok : Machine → Act → Prop) (m : Machine) : Prop where
  /-- A task that has begun to wait is on the list of its event until it is woken or removed. -/
  kept : ∀ e w, .register e w ∈ m.log →
    w ∈ m.sched.waiting e ∨ m.holds e w ∨ .wake e w ∈ m.log ∨ .unwait e w ∈ m.log
  /-- An id that `_alloc_event_id` finds is the id of no live event. -/
  fresh : ∀ e s, m.sched.allocEventId = some (e, s) → m.sched.eventNameMap e = none
  /-- When an outermost `schedule_task` returns, the tasks that waited on an event before a send of
  it have been scheduled or removed. -/
  answered : ∀ a m', ok m a → m.step a = some m' → m'.fault = none → Returns m m' →
    ∀ later e ws earlier, m'.log = later ++ .send e ws :: earlier →
      ∀ w, .register e w ∈ earlier → Scheduled e w m'.log ∨ .unwait e w ∈ m'.log

/-- `new_event_hdl` is not called for an id on whose list tasks wait; and no outermost
`schedule_task` returns on the removal flag while `has_wakeup_event` is set. -/
def Machine.keepsWaiting (m : Machine) : Act → Bool
  | .newEventHdl name user =>
    match m.sched.eventIdFor user with
    | some e => decide (m.sched.waiting e = [])
    | none => m.keepsWakeups (.newEventHdl name user)
  | a => m.keepsWakeups a

lemma Machine.keepsWaiting.keepsWakeups (h : m.keepsWaiting a = true) : m.keepsWakeups a = true := by
  unfold Machine.keepsWaiting at h
  split at h
  · next name user =>
    split at h
    · next e he =>
      simp only [Machine.keepsWakeups, he, decide_eq_true_eq]
      exact fun _ => of_decide_eq_true h
    · exact h
  · exact h

lemma BusAct.keepsWaiting (h : m.keepsWaiting a = true) {b : EventBus.Act EventID Waiter}
    (hb : BusAct m a b) : EventBus.KeepsWaiting m.bus b := by
  cases hb with
  | newEventHdl name user e s hc =>
    simp only [Machine.keepsWaiting, hc.eventIdFor, decide_eq_true_eq] at h
    exact h
  | wait | insertWaiter | send | removeTask | yielded | loop => trivial

lemma holds_of_bus (h : m.bus.Held e w) : m.holds e w := by
  obtain ⟨l, hmem, hw⟩ := h
  obtain ⟨f, hf, hl⟩ := List.mem_filterMap.mp hmem
  cases f with
  | wakeup next taken =>
    cases hl
    cases taken with
    | none => cases hw
    | some t =>
      obtain ⟨e', ws⟩ := t
      simp only [EventBus.Loop.tokens] at hw
      split_ifs at hw with heq
      · exact ⟨next, ws, heq ▸ hf, hw⟩
      · cases hw
  | call | body | resumed | pass => cases hl

/-- In runs that make no handle for an event while tasks wait on it, making handles is harmless. -/
theorem harmless_of_keepsWaiting
    (h : Machine.Reached mode (fun m a => m.keepsWaiting a = true) m) (hf : m.fault = none) :
    m.Harmless (fun m a => m.keepsWaiting a = true) := by
  have hbus : ∀ {m}, Machine.Reached mode (fun m a => m.keepsWaiting a = true) m → m.fault = none →
      Reach EventBus.Bus.step EventBus.KeepsWaiting EventBus.Bus.init m.bus := by
    intro m hm hf
    obtain ⟨b, hb, -, heq⟩ := bus_of_reached (G := EventBus.KeepsWaiting)
      (fun _ _ _ _ _ hok hb => hb.keepsWaiting hok) hm
    exact heq hf ▸ hb
  refine ⟨fun e w hr => ?_, fun e s hs => (Scheduler.allocEventId_eq_some hs).1, ?_⟩
  · have hkept := EventBus.kept_of_reach (hbus h hf)
    rcases hkept.kept e w (mem_filterMap_entryOf.mpr hr) with hw | hw | hw
    · exact .inl hw
    · exact .inr (.inl (holds_of_bus hw))
    · exact .inr (.inr (hw.imp mem_filterMap_entryOf.mp mem_filterMap_entryOf.mp))
  · intro a m' hok hs hf' hret later e ws earlier hlog w hr
    obtain ⟨hm, hrule⟩ := Rule.of_step hs
    have hreach := h.tail hok hs
    have hflag := hrule.flag_of_returns hret (flagDown_of_reached h hm) (Machine.keepsWaiting.keepsWakeups hok) hf'
    have hsplit : m'.bus.log =
        later.filterMap Ev.entry? ++ .send e ws :: earlier.filterMap Ev.entry? := by
      show m'.log.filterMap Ev.entry? = _
      rw [hlog, List.filterMap_append]
      rfl
    have hend := EventBus.ended_of_reach (hbus hreach hf') hflag
      (Machine.bus_loops_of_not_inSchedule hret.2) hsplit (List.mem_filterMap.mpr ⟨_, hr, rfl⟩)
    refine hend.imp (fun hmem => ?_) mem_filterMap_entryOf.mp
    have hwake : .wake e w ∈ m'.log := mem_filterMap_entryOf.mp hmem
    have hentering := entering_of_reached hreach hf'
    refine hentering.entered.scheduled hwake fun log' heq => ?_
    -- the task of a wake-up just logged is still to be called, so no `schedule_task` has returned
    obtain ⟨rest, hstack⟩ := hentering.head e w log' heq
    have hout := hret.2
    simp [Machine.inSchedule, hstack, Frame.isTask] at hout

/-- `A: e:wait()`, and then `("e"):ehdl(7)`, where `e` has the id 7. -/
def handleGotWhileWaiting : List Act :=
  [.newEventHdl "e" (some 7), .appendTask none "A" 0 true, .enter, .wait 7, .yielded,
   .newEventHdl "e" (some 7)]

theorem not_harmless : ¬ ∀ m, Machine.Reached .normal Unguarded m → m.fault = none →
    m.Harmless Unguarded := by
  intro h
  have hrun : (run Machine.step (Machine.init .normal) handleGotWhileWaiting).map
      (fun m => (m.fault, m.stack, m.sched.waiting 7, m.log)) =
        some (none, [], [], [.register 7 ⟨1, 0⟩, .resume 1 0 false, .create 1 0]) := by
    decide +kernel
  obtain ⟨m, hm, heq⟩ := Option.map_eq_some_iff.mp hrun
  simp only [Prod.mk.injEq] at heq
  obtain ⟨hf, hs, hw, hlog⟩ := heq
  rcases (h m (reach_of_run hm) hf).kept 7 ⟨1, 0⟩ (by simp [hlog]) with hmem | ⟨_, _, hmem, -⟩ | hmem
  · simp [hw] at hmem
  · simp [hs] at hmem
  · simp [hlog] at hmem

/-- The handle is got once before the task waits, and once after it has been woken. -/
def handleGotBetweenWaits : List Act :=
  [.newEventHdl "e" (some 7), .newEventHdl "e" (some 7), .newEventHdl "f" none,
   .appendTask none "A" 0 true, .enter, .wait 7, .yielded,
   .appendTask none "B" 1 true, .enter, .send 7, .yield .noop, .yielded,
   .loop, .loop, .enter, .newEventHdl "e" (some 7), .yield .returned, .yielded, .loop]

theorem harmless_of_handleGotBetweenWaits :
    ∃ m m', runChecked Machine.step (fun m a => m.keepsWaiting a = true) (Machine.init .normal)
        handleGotBetweenWaits = some m ∧
      m.step .loop = some m' ∧ Returns m m' ∧ Scheduled 7 ⟨1, 0⟩ m'.log := by
  have hrun : (runChecked Machine.step (fun m a => m.keepsWaiting a = true) (Machine.init .normal)
      handleGotBetweenWaits).bind (fun m => (m.step .loop).map fun m' =>
        (m.fault, m'.fault, m.inSchedule, m'.inSchedule, m'.log)) =
      some (none, none, true, false, [.finish 1 0, .resume 1 0 false, .wake 7 ⟨1, 0⟩,
        .send 7 [⟨1, 0⟩], .resume 2 1 false, .create 2 1, .register 7 ⟨1, 0⟩, .resume 1 0 false,
        .create 1 0]) := by
    decide +kernel
  obtain ⟨m, hm, hrest⟩ := Option.bind_eq_some_iff.mp hrun
  obtain ⟨m', hs, heq⟩ := Option.map_eq_some_iff.mp hrest
  simp only [Prod.mk.injEq] at heq
  obtain ⟨hf, hf', hin, hout, hlog⟩ := heq
  have hharmless := harmless_of_keepsWaiting (reach_of_runChecked hm) hf
  have hsplit : m'.log = [.finish 1 0, .resume 1 0 false, .wake 7 ⟨1, 0⟩] ++
      .send 7 [⟨1, 0⟩] :: [.resume 2 1 false, .create 2 1, .register 7 ⟨1, 0⟩, .resume 1 0 false,
        .create 1 0] := hlog
  have hans := hharmless.answered .loop m' rfl hs hf' ⟨hin, hout⟩ _ _ _ _ hsplit ⟨1, 0⟩ (by simp)
  exact ⟨m, m', hm, hs, ⟨hin, hout⟩, hans.resolve_right (by simp [hlog])⟩

end Verilua
